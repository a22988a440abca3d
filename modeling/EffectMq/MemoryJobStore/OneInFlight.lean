import EffectMq.MemoryJobStore.Dedupe

/-! # One job in flight

Under the plain pending mode the registry entry of a key names the one job of that key that has not
ended, from its insert until it ends. Only an admin retry brings back a job that no entry names, so
the runs below also carry the ids that an admin retry has brought back (`Reopened`).
-/

namespace EffectMq.Memory
set_option autoImplicit false
set_option maxHeartbeats 250000

open Transition

variable {V : Type}

/-! ## Retried jobs -/

/-- A store, and the live jobs that an admin retry has brought back. -/
structure Reopened (V : Type) where
  store : Store V
  reopened : List JobId

def aliveIn (c : Core V) (id : JobId) : Bool :=
  (c.jobs.get? id).any fun job => !job.state.isTerminal

def reopens (s : Store V) : Op V → List JobId
  | .retry id => if (s.jobs.get? id).any fun job => decide (job.state = .failed) then [id] else []
  | _ => []

def Reopened.exec (s : Reopened V) (now : Millis) (op : Op V) : Reopened V where
  store := Memory.exec s.store now op
  reopened := (reopens s.store op ++ s.reopened).filter (aliveIn (Memory.exec s.store now op).toCore)

def ReopenStep (s : Reopened V) (event : Millis × Op V) (t : Reopened V) : Prop :=
  t = s.exec event.1 event.2

def ReopenStart (s : Reopened V) : Prop := s = ⟨Store.empty, []⟩

/-! ## The jobs of one key -/

section

variable (name key : String)

/-- A job of the key that has not ended. -/
def MemJob.LiveFor (job : MemJob V) : Prop := job.IsFor name key ∧ job.state.isTerminal = false

def RequestFor (request : EnqueueRequest V) : Prop :=
  request.name = name ∧ request.dedupe.map (·.key) = some key

def OneLive (s : Store V) : Prop :=
  ∀ id id' job job', s.jobs.get? id = some job → s.jobs.get? id' = some job' →
    job.LiveFor name key → job'.LiveFor name key → id = id'

/-- No job of the key that a retry has brought back is live. -/
def NoneReopened (s : Reopened V) : Prop :=
  ∀ id ∈ s.reopened, ∀ job, s.store.jobs.get? id = some job → ¬ job.LiveFor name key

/-- A request that shares the registry key has the name and the key. -/
def KeyedApart (request : EnqueueRequest V) : Prop :=
  requestMapKey? request = some (dedupeMapKey name key) → RequestFor name key request

/-- Enqueues of the key use the plain pending mode, and schedule ticks have no dedup policy. -/
def PlainFor : Op V → Prop
  | .enqueue request _ | .resumeEnqueue request _ =>
    RequestFor name key request →
      ∀ dedupe, request.dedupe = some dedupe → dedupe.ttlMs = none ∧ dedupe.replace = false
  | .tickSchedule _ _ _ request => request.dedupe = none
  | _ => True

/-- No retry of a failed job of the key while another one is live, no enqueue of the key while a
retried one is, no resumed enqueue that would now be deduplicated, and no request of another name and
key under the same registry key. -/
def KeepsOne (s : Reopened V) : Millis × Op V → Prop
  | (_, .retry id) =>
    ∀ job, s.store.jobs.get? id = some job → job.state = .failed → job.IsFor name key →
      ∀ id' job', s.store.jobs.get? id' = some job' → ¬ job'.LiveFor name key
  | (_, .enqueue request _) =>
    KeyedApart name key request ∧
    (RequestFor name key request → request.id.filter s.store.jobs.has = none →
      NoneReopened name key s)
  | (now, .resumeEnqueue request _) =>
    KeyedApart name key request ∧
    (RequestFor name key request →
      enqueueDecision s.store now request = none ∧ NoneReopened name key s)
  | _ => True

/-- A live job of the key is named by the pending entry of the key, unless a retry brought it back. -/
def Registered (s : Reopened V) : Prop :=
  ∀ id job, s.store.jobs.get? id = some job → job.LiveFor name key → id ∉ s.reopened →
    s.store.dedupes.get? (dedupeMapKey name key) = some ⟨id, none⟩

structure OneInv (s : Reopened V) : Prop where
  keyed : s.store.toCore.Keyed
  registered : Registered name key s
  one : OneLive name key s.store

end

section

variable {name key : String}

theorem SameKey.isFor {job job' : MemJob V} (h : SameKey job job') (hf : job'.IsFor name key) :
    job.IsFor name key :=
  ⟨h.name.symm.trans hf.1, h.dedupeKey.symm.trans hf.2⟩

theorem newJob_isFor {id : JobId} {request : EnqueueRequest V} {now : Millis} {seq : ℕ} :
    (newJob id request now seq).IsFor name key ↔ RequestFor name key request :=
  Iff.rfl

theorem RequestFor.mapKey? {request : EnqueueRequest V} (h : RequestFor name key request) :
    requestMapKey? request = some (dedupeMapKey name key) := by
  obtain ⟨dedupe, hd, rfl⟩ := Option.map_eq_some_iff.mp h.2
  rw [requestMapKey?, hd, Option.map_some, h.1]

theorem mem_reopened_exec {s : Reopened V} {now : Millis} {op : Op V} {id : JobId} {job : MemJob V}
    (hj : (Memory.exec s.store now op).jobs.get? id = some job) (hst : job.state.isTerminal = false)
    (h : id ∈ s.reopened ∨ id ∈ reopens s.store op) : id ∈ (s.exec now op).reopened := by
  refine List.mem_filter.mpr ⟨List.mem_append.mpr h.symm, ?_⟩
  rw [aliveIn, hj, Option.any_some, hst]
  rfl

/-- What an operation keeps of the live jobs and of the entry of the key. -/
theorem OneInv.of_kept {s : Reopened V} {now : Millis} {op : Op V} (h : OneInv name key s)
    (hjobs : ∀ id job', (Memory.exec s.store now op).jobs.get? id = some job' →
      job'.LiveFor name key → ∃ job, s.store.jobs.get? id = some job ∧ job.LiveFor name key)
    (hentry : ∀ id job', (Memory.exec s.store now op).jobs.get? id = some job' →
      job'.LiveFor name key → s.store.dedupes.get? (dedupeMapKey name key) = some ⟨id, none⟩ →
      (Memory.exec s.store now op).dedupes.get? (dedupeMapKey name key) = some ⟨id, none⟩) :
    OneInv name key (s.exec now op) := by
  refine ⟨exec_keyed h.keyed now op, fun id job' hj hlive hno => ?_,
    fun id id' job job' hj hj' hl hl' => ?_⟩
  · obtain ⟨job, hj₀, hl₀⟩ := hjobs id job' hj hlive
    refine hentry id job' hj hlive (h.registered id job hj₀ hl₀ fun hmem => hno ?_)
    exact mem_reopened_exec hj hlive.2 (.inl hmem)
  · obtain ⟨_, hj₀, hl₀⟩ := hjobs id job hj hl
    obtain ⟨_, hj₀', hl₀'⟩ := hjobs id' job' hj' hl'
    exact h.one id id' _ _ hj₀ hj₀' hl₀ hl₀'

theorem OneInv.exec_closing {s : Reopened V} (h : OneInv name key s) (now : Millis) {op : Op V}
    (hop : ¬ op.Opens) : OneInv name key (s.exec now op) := by
  have hf := exec_frees h.keyed now hop
  have hlive : ∀ id job', (Memory.exec s.store now op).jobs.get? id = some job' →
      job'.LiveFor name key → ∃ job, s.store.jobs.get? id = some job ∧ job.LiveFor name key := by
    intro id job' hj hl
    have hnot : ∀ request t seq, ¬ Allows now op (.insert id request t seq) := by
      intro request t seq hl
      cases hl <;> exact hop trivial
    obtain ⟨job, hj₀, hsame⟩ := exec_sameKey h.keyed now hnot hj
    refine ⟨job, hj₀, hsame.isFor hl.1, Bool.eq_false_iff.mpr fun hterm => ?_⟩
    have hended : s.store.toCore.Ended id := fun job₁ hj₁ => by
      cases hj₀.symm.trans hj₁
      exact hterm
    have hterm' := hf.ended id hended job' hj
    rw [hl.2] at hterm'
    cases hterm'
  refine h.of_kept hlive fun id job' hj hl he => ?_
  rcases hf.freed _ _ he with hkept | ⟨_, hended⟩
  · exact hkept
  · have hterm := hended rfl job' hj
    rw [hl.2] at hterm
    cases hterm

/-- A key without a live job gets one, and its entry names it. -/
theorem OneInv.of_inserted {s : Reopened V} {now : Millis} {op : Op V} {request : EnqueueRequest V}
    {id : JobId} {seq : ℕ} (h : OneInv name key s)
    (hnone : ∀ id' job', s.store.jobs.get? id' = some job' → ¬ job'.LiveFor name key)
    (hjobs : ∀ id', (Memory.exec s.store now op).jobs.get? id' =
      if id' = id then some (newJob id request now seq) else s.store.jobs.get? id')
    (hentry : (Memory.exec s.store now op).dedupes.get? (dedupeMapKey name key) = some ⟨id, none⟩) :
    OneInv name key (s.exec now op) := by
  have hid : ∀ id' job', (Memory.exec s.store now op).jobs.get? id' = some job' →
      job'.LiveFor name key → id' = id := by
    intro id' job' hj hl
    rw [hjobs] at hj
    by_contra hne
    rw [if_neg hne] at hj
    exact hnone id' job' hj hl
  refine ⟨exec_keyed h.keyed now op, fun id' job' hj hl _ => ?_,
    fun id₁ id₂ job₁ job₂ hj₁ hj₂ hl₁ hl₂ => ?_⟩
  · rw [hid id' job' hj hl]
    exact hentry
  · exact (hid id₁ job₁ hj₁ hl₁).trans (hid id₂ job₂ hj₂ hl₂).symm

/-- An entry that dedup takes over names no live job of the key. -/
theorem OneInv.none_live {s : Reopened V} (h : OneInv name key s) {now : Millis}
    (hno : NoneReopened name key s)
    (hdead : ∀ entry, s.store.dedupes.get? (dedupeMapKey name key) = some entry →
      entry.Dead s.store now) (id : JobId) (job : MemJob V) (hj : s.store.jobs.get? id = some job) :
    ¬ job.LiveFor name key := by
  intro hl
  by_cases hmem : id ∈ s.reopened
  · exact hno id hmem job hj hl
  · have hterm := (hdead _ (h.registered id job hj hl hmem)).2 rfl job hj
    rw [hl.2] at hterm
    cases hterm

/-- A dedup decision to insert. -/
theorem dead_of_decision {s : Store V} {now : Millis} {request : EnqueueRequest V}
    (hdec : enqueueDecision s now request = none) (hr : RequestFor name key request)
    {entry : DedupeEntry} (he : s.dedupes.get? (dedupeMapKey name key) = some entry) :
    entry.Dead s now := by
  obtain ⟨dedupe, hd, hkey⟩ := Option.map_eq_some_iff.mp hr.2
  unfold enqueueDecision at hdec
  split at hdec
  · cases hdec
  · rw [hd, Option.bind_some] at hdec
    refine dedupeDecision_eq_none hdec ?_
    rw [hr.1, hkey]
    exact he

theorem insertFresh_entry_of_plain {s : Store V} {now : Millis} {request : EnqueueRequest V}
    {id : JobId} (hr : RequestFor name key request)
    (hplain : ∀ dedupe, request.dedupe = some dedupe → dedupe.ttlMs = none ∧ dedupe.replace = false) :
    (insertFresh s now request id).dedupes.get? (dedupeMapKey name key) = some ⟨id, none⟩ := by
  obtain ⟨dedupe, hd, _⟩ := Option.map_eq_some_iff.mp hr.2
  rw [insertFresh_entry, if_pos hr.mapKey?, hd, Option.map_some, (hplain dedupe hd).1]
  rfl

theorem insertFresh_get? (s : Store V) (now : Millis) (request : EnqueueRequest V) (id id' : JobId) :
    (insertFresh s now request id).jobs.get? id' =
      if id' = id then some (newJob id request now (s.seq + 1)) else s.jobs.get? id' := by
  rw [insertFresh_toCore, putJob_get?]
  rfl

/-- A request of another key inserts its job beside those of the key. -/
theorem OneInv.insert_other {s : Reopened V} {now : Millis} {op : Op V}
    {request : EnqueueRequest V} {id : JobId} {seq : ℕ} (h : OneInv name key s)
    (hr : ¬ RequestFor name key request)
    (hjobs : ∀ id', (Memory.exec s.store now op).jobs.get? id' =
      if id' = id then some (newJob id request now seq) else s.store.jobs.get? id')
    (hentry : (Memory.exec s.store now op).dedupes.get? (dedupeMapKey name key) =
      s.store.dedupes.get? (dedupeMapKey name key)) : OneInv name key (s.exec now op) := by
  refine h.of_kept (fun id' job' hj hl => ?_) fun _ _ _ _ he => hentry.trans he
  rw [hjobs] at hj
  split at hj
  · cases hj
    exact absurd (newJob_isFor.mp hl.1) hr
  · exact ⟨job', hj, hl⟩

/-- The last part of an enqueue, whose request the dedup tree lets in. -/
theorem OneInv.insertFresh {s : Reopened V} {now : Millis} {op : Op V} {request : EnqueueRequest V}
    {id : JobId} {t : Store V} (h : OneInv name key s)
    (hexec : Memory.exec s.store now op = insertFresh t now request id)
    (hsame : t.dedupes = s.store.dedupes) (hjobs : t.jobs = s.store.jobs)
    (hapart : KeyedApart name key request)
    (hplain : RequestFor name key request → ∀ dedupe, request.dedupe = some dedupe →
      dedupe.ttlMs = none ∧ dedupe.replace = false)
    (hdec : RequestFor name key request →
      enqueueDecision s.store now request = none ∧ NoneReopened name key s) :
    OneInv name key (s.exec now op) := by
  have hget : ∀ id', (Memory.exec s.store now op).jobs.get? id' =
      if id' = id then some (newJob id request now (t.seq + 1)) else s.store.jobs.get? id' := by
    intro id'
    rw [hexec, insertFresh_get?, hjobs]
  by_cases hr : RequestFor name key request
  · obtain ⟨hnone, hno⟩ := hdec hr
    refine h.of_inserted (h.none_live hno fun entry he => dead_of_decision hnone hr he) hget ?_
    rw [hexec]
    exact insertFresh_entry_of_plain hr (hplain hr)
  · refine h.insert_other hr hget ?_
    rw [hexec, insertFresh_entry, if_neg fun hkey => hr (hapart hkey), hsame]

theorem setWindow_other {s : Store V} {now : Millis} {request : EnqueueRequest V}
    {dedupe : DedupePolicy} (hapart : KeyedApart name key request)
    (hr : ¬ RequestFor name key request) (hd : request.dedupe = some dedupe)
    (ttlMs : Option (WithTop Millis)) :
    (setWindow s (dedupeMapKey request.name dedupe.key) now ttlMs).dedupes.get?
      (dedupeMapKey name key) = s.dedupes.get? (dedupeMapKey name key) := by
  have hne : dedupeMapKey name key ≠ dedupeMapKey request.name dedupe.key := fun heq =>
    hr (hapart (by rw [requestMapKey?, hd, Option.map_some, heq]))
  unfold setWindow
  split
  · rfl
  · rw [JsMap.get?_modify, if_neg hne]

theorem OneInv.enqueue {s : Reopened V} (h : OneInv name key s) {now : Millis}
    {request : EnqueueRequest V} {ids : IdSource}
    (hplain : PlainFor name key (.enqueue request ids))
    (hsafe : KeepsOne name key s (now, .enqueue request ids)) :
    OneInv name key (s.exec now (.enqueue request ids)) := by
  obtain ⟨hapart, hno⟩ := hsafe
  have hspec := enqueueOne_spec s.store now request ids
  have hexec : Memory.exec s.store now (.enqueue request ids) = (enqueueOne s.store now request ids).2 :=
    rfl
  generalize (enqueueOne s.store now request ids).1 = result at hspec
  generalize (enqueueOne s.store now request ids).2 = t at hspec hexec
  have hwindow : ∀ (u : Store V) dedupe, request.dedupe = some dedupe →
      (setWindow u (dedupeMapKey request.name dedupe.key) now dedupe.ttlMs).dedupes.get?
        (dedupeMapKey name key) = u.dedupes.get? (dedupeMapKey name key) := by
    intro u dedupe hd
    by_cases hr : RequestFor name key request
    · rw [(hplain hr dedupe hd).1]
      rfl
    · exact setWindow_other hapart hr hd _
  cases hspec with
  | duplicate | pending | exhausted =>
    refine h.of_kept (fun id job hj hl => ⟨job, ?_, hl⟩) fun _ _ _ _ he => ?_
    · rwa [hexec] at hj
    · rwa [hexec]
  | @windowed dedupe _ _ hd =>
    refine h.of_kept (fun id job hj hl => ⟨job, ?_, hl⟩) fun _ _ _ _ he => ?_
    · rw [hexec] at hj
      split at hj
      · rwa [setWindow_toCore] at hj
      · exact hj
    · rw [hexec]
      split
      · rwa [hwindow s.store dedupe hd]
      · exact he
  | @replaced dedupe entry keyed _ hd _ hkeyed hst =>
    refine h.of_kept (fun id job hj hl => ?_) fun _ _ _ _ he => ?_
    · rw [hexec, signalWake_toCore, setWindow_toCore, putJob_toCore, putJob_get?] at hj
      split at hj
      · rename_i hid
        cases hj
        have hid : entry.jobId = id := (h.keyed _ _ hkeyed).symm.trans hid.symm
        exact ⟨keyed, hid ▸ hkeyed, hl⟩
      · exact ⟨job, hj, hl⟩
    · rw [hexec, signalWake_dedupes, hwindow _ dedupe hd]
      exact he
  | @inserted id counter _ _ _ _ hdec =>
    refine h.insertFresh (t := { s.store with idCounter := counter }) hexec rfl rfl hapart hplain
      fun hr => ⟨hdec, hno hr ?_⟩
    unfold enqueueDecision at hdec
    split at hdec
    · cases hdec
    · assumption

theorem OneInv.retry {s : Reopened V} (h : OneInv name key s) {now : Millis} {id : JobId}
    {job : MemJob V} (hj : s.store.jobs.get? id = some job) (hst : job.state = .failed)
    (hsafe : KeepsOne name key s (now, .retry id)) :
    OneInv name key (s.exec now (.retry id)) := by
  have hid : job.id = id := h.keyed _ _ hj
  have hexec : Memory.exec s.store now (.retry id) = (Memory.retry s.store now id).2 := rfl
  have hjobs : ∀ id', (Memory.exec s.store now (.retry id)).jobs.get? id' =
      if id' = id then some ((Move.retry now (s.store.seq + 1)).apply job)
      else s.store.jobs.get? id' := by
    intro id'
    subst hid
    rw [hexec, Memory.retry, hj]
    simp only [hst, ne_eq, not_true_eq_false, if_false, signalWake_toCore, putJob_toCore, putJob_get?]
    rfl
  have hentry : (Memory.exec s.store now (.retry id)).dedupes = s.store.dedupes :=
    retry_dedupes s.store now id
  have hmem : id ∈ (s.exec now (.retry id)).reopened := by
    refine mem_reopened_exec (by rw [hjobs, if_pos rfl]) rfl (.inr ?_)
    rw [reopens, hj, Option.any_some, hst]
    exact List.mem_singleton_self id
  -- What is live besides the retried job was live before, and then no job of the key is retried.
  have hother : ∀ id' job', (Memory.exec s.store now (.retry id)).jobs.get? id' = some job' →
      job'.LiveFor name key → id' ≠ id →
      s.store.jobs.get? id' = some job' ∧ ¬ job.IsFor name key := by
    intro id' job' hj' hl hne
    rw [hjobs, if_neg hne] at hj'
    exact ⟨hj', fun hf => hsafe job hj hst hf id' job' hj' hl⟩
  have hretried : ∀ job', (Memory.exec s.store now (.retry id)).jobs.get? id = some job' →
      job'.LiveFor name key → job.IsFor name key := by
    intro job' hj' hl
    rw [hjobs, if_pos rfl] at hj'
    cases hj'
    exact hl.1
  refine ⟨exec_keyed h.keyed now _, fun id' job' hj' hl hno => ?_,
    fun id₁ id₂ job₁ job₂ hj₁ hj₂ hl₁ hl₂ => ?_⟩
  · have hne : id' ≠ id := fun heq => hno (heq ▸ hmem)
    have hj₀ := (hother id' job' hj' hl hne).1
    rw [show (s.exec now (.retry id)).store.dedupes = s.store.dedupes from hentry]
    exact h.registered id' job' hj₀ hl fun hr => hno (mem_reopened_exec hj' hl.2 (.inl hr))
  · by_cases h₁ : id₁ = id
    · by_cases h₂ : id₂ = id
      · exact h₁.trans h₂.symm
      · exact absurd (hretried job₁ (h₁ ▸ hj₁) hl₁) (hother id₂ job₂ hj₂ hl₂ h₂).2
    · by_cases h₂ : id₂ = id
      · exact absurd (hretried job₂ (h₂ ▸ hj₂) hl₂) (hother id₁ job₁ hj₁ hl₁ h₁).2
      · exact h.one id₁ id₂ _ _ (hother id₁ job₁ hj₁ hl₁ h₁).1 (hother id₂ job₂ hj₂ hl₂ h₂).1 hl₁ hl₂

/-- A step that meets the conditions keeps the jobs of the key to one. -/
theorem OneInv.step {s : Reopened V} (h : OneInv name key s) {now : Millis} {op : Op V}
    (hplain : PlainFor name key op) (hsafe : KeepsOne name key s (now, op)) :
    OneInv name key (s.exec now op) := by
  have hstill : (Memory.exec s.store now op).jobs = s.store.jobs →
      (Memory.exec s.store now op).dedupes = s.store.dedupes → OneInv name key (s.exec now op) := by
    intro hjobs hentry
    refine h.of_kept (fun id job hj hl => ⟨job, ?_, hl⟩) fun _ _ _ _ he => ?_
    · rwa [hjobs] at hj
    · rwa [hentry]
  by_cases hop : op.Opens
  · cases op with
    | enqueue request ids => exact h.enqueue hplain hsafe
    | resumeEnqueue request candidate =>
      rcases resumeEnqueue_cases s.store now request candidate with heq | ⟨_, hexec⟩
      · exact hstill (congrArg (·.jobs) heq) (congrArg (·.dedupes) heq)
      · exact h.insertFresh hexec rfl rfl hsafe.1 hplain hsafe.2
    | tickSchedule skey expectedRunAt nextRunAt request =>
      have hr : ¬ RequestFor name key request := by
        rintro ⟨_, hd⟩
        rw [show request.dedupe = none from hplain] at hd
        cases hd
      have hentry := tickSchedule_dedupes s.store now skey expectedRunAt nextRunAt request
      rcases tickSchedule_jobs s.store now skey expectedRunAt nextRunAt request with
        hjobs | ⟨id, _, _, hjobs⟩
      · exact hstill hjobs hentry
      · exact h.insert_other hr hjobs (congrArg (JsMap.get? · _) hentry)
    | retry id =>
      by_cases hfailed : ∃ job, s.store.jobs.get? id = some job ∧ job.state = .failed
      · obtain ⟨job, hj, hst⟩ := hfailed
        exact h.retry hj hst hsafe
      · have heq : Memory.exec s.store now (.retry id) = s.store := by
          simp only [Memory.exec, Memory.retry]
          split
          · rfl
          · rename_i job hj
            rw [if_pos fun hst => hfailed ⟨job, hj, hst⟩]
        exact hstill (by rw [heq]) (by rw [heq])
    | _ => exact hop.elim
  · exact h.exec_closing now hop

end

/-- In every run whose retries, resumed enqueues and registry keys meet the conditions, at most one
job of a key that is only enqueued in the pending mode has not ended. -/
theorem one_in_flight {name key : String} {s : Reopened V}
    (h : Reachable ReopenStart (fun s e t =>
      ReopenStep s e t ∧ PlainFor name key e.2 ∧ KeepsOne name key s e) s) :
    OneLive name key s.store := by
  have hinv : OneInv name key s := by
    refine h.induct (I := OneInv name key) ?_ ?_
    · rintro s rfl
      exact ⟨fun _ _ hj => (by cases hj), fun _ _ hj => (by cases hj), fun _ _ _ _ hj => (by cases hj)⟩
    · rintro s ⟨now, op⟩ t ⟨rfl, hplain, hsafe⟩ hinv
      exact hinv.step hplain hsafe
  exact hinv.one

/-! ## A retried job beside a newer one -/

def keyedRequest (id : JobId) : EnqueueRequest Unit :=
  { EnqueueRequest.plain id "sync" "q" () with dedupe := some ⟨"k", none, false, false⟩ }

/-- The first job of the key fails, and a second one is enqueued. -/
def failedThenEnqueued : List (Millis × Op Unit) :=
  [(0, .enqueue (keyedRequest "a") .counter), (1, .claim ⟨"q", ["sync"], "t", 30⟩),
    (2, .ack "a" "t" (.fail none)), (3, .enqueue (keyedRequest "b") .counter)]

theorem one_in_flight_failedThenEnqueued :
    ∃ s : Reopened Unit, s.store = execs Store.empty failedThenEnqueued ∧
      OneLive "sync" "k" s.store := by
  have hplain : ∀ id ids, PlainFor "sync" "k" (.enqueue (keyedRequest id) ids) := by
    intro id ids _ dedupe hd
    cases hd
    exact ⟨rfl, rfl⟩
  have hkeyed : ∀ id, KeyedApart "sync" "k" (keyedRequest id) := fun id _ => ⟨rfl, rfl⟩
  have hrun : Run (fun s e t => ReopenStep s e t ∧ PlainFor "sync" "k" e.2 ∧
      KeepsOne "sync" "k" s e) ⟨Store.empty, []⟩ failedThenEnqueued _ :=
    .cons ⟨rfl, hplain _ _, hkeyed _, fun _ _ _ h => by cases h⟩ (.cons ⟨rfl, trivial, trivial⟩
      (.cons ⟨rfl, trivial, trivial⟩
        (.cons ⟨rfl, hplain _ _, hkeyed _, fun _ _ _ h => by cases h⟩ (.refl _))))
  exact ⟨_, rfl, one_in_flight ⟨_, _, rfl, hrun⟩⟩

/-- An admin retry of the first then makes two. -/
theorem retried_beside_newer :
    ¬ ∀ s : Reopened Unit, Reachable ReopenStart
      (fun s e t => ReopenStep s e t ∧ PlainFor "sync" "k" e.2) s → OneLive "sync" "k" s.store := by
  intro h
  have hplain : ∀ id ids, PlainFor "sync" "k" (.enqueue (keyedRequest id) ids) := by
    intro id ids _ dedupe hd
    cases hd
    exact ⟨rfl, rfl⟩
  have hrun : Run (fun s e t => ReopenStep s e t ∧ PlainFor "sync" "k" e.2) ⟨Store.empty, []⟩
      (failedThenEnqueued ++ [(4, .retry "a")]) _ :=
    .cons ⟨rfl, hplain _ _⟩ (.cons ⟨rfl, trivial⟩ (.cons ⟨rfl, trivial⟩
      (.cons ⟨rfl, hplain _ _⟩ (.cons ⟨rfl, trivial⟩ (.refl _)))))
  have hone := h _ ⟨_, _, rfl, hrun⟩ "a" "b" _ _ rfl rfl ⟨⟨rfl, rfl⟩, rfl⟩ ⟨⟨rfl, rfl⟩, rfl⟩
  exact absurd hone (by decide)

end EffectMq.Memory
