import EffectMq.MemoryJobStore.Claims
import EffectMq.MemoryJobStore.Enqueue

/-! # The payload of a flow parent

A flow parent runs twice: `fanOut` on a record without flow bookkeeping, `collect` on one with. The
system keeps, for every persisted manifest, the payload its fan-out ran with. `collect` sees the same
payload unless a dedup replace has rewritten a parent that has already fanned out.
-/

namespace EffectMq.Worker
set_option autoImplicit false
set_option maxHeartbeats 250000

open Transition Memory

variable {V : Type}

/-! ## State -/

/-- Under a flow id, the payload with which the fan-out that produced its manifest was run. -/
structure Origins (V : Type) extends Claims V where
  origins : JsMap JobId V
  deriving DecidableEq

/-- The `flow` marker that `processJob` dispatches on. -/
def marked (s : Store V) (id : JobId) : Bool :=
  (s.jobs.get? id).any fun job => job.flow.isSome

/-- A fan-out ack that the store accepts for a job without a manifest produces one. -/
def originsAfter (s : Origins V) (now : Millis) (id : JobId) (token : String) (failFast : Bool)
    (children : List (FlowChildSpec V)) : JsMap JobId V :=
  match (ack s.store now id token (.fanOut failFast children)).1, marked s.store id,
      s.claims.get? token with
  | .ok (), false, some (some record) => s.origins.set id record.payload
  | _, _, _ => s.origins

def Origins.exec (s : Origins V) (now : Millis) (op : Op V) : Origins V where
  toClaims := s.toClaims.exec now op
  origins := match op with
    | .ack id token (.fanOut failFast children) => originsAfter s now id token failFast children
    | _ => s.origins

def OriginStep (s : Origins V) (e : Millis × Op V) (t : Origins V) : Prop :=
  e.2.Fresh s.toClaims ∧ t = s.exec e.1 e.2

def OriginStart (s : Origins V) : Prop := s = ⟨⟨Store.empty, ∅⟩, ∅⟩

/-- A replace that lands on a job that has fanned out leaves its payload as it is. -/
def KeepsPayload (s : Origins V) (e : Millis × Op V) : Prop :=
  match e.2 with
  | .enqueue request _ => ∀ keyed, replaceTarget? s.store request = some keyed →
      keyed.flow.isSome = true → request.payload = keyed.payload
  | _ => True

/-! ## Payloads -/

/-- A record keeps its payload, and gets its marker from a fan-out. -/
theorem payload_step {id : JobId} {l : Label V} {v v' : View V} (h : ViewStep id l v v')
    (hreplace : ∀ request now, l ≠ .move id (.replace request now)) {job' : MemJob V}
    (hj : v'.job = some job') :
    (l.Inserts ∧ job'.flow = none) ∨ ∃ job, v.job = some job ∧ job.payload = job'.payload ∧
      (job.flow.isSome = job'.flow.isSome ∨
        ∃ failFast children now, l = .park id failFast children now) := by
  cases h with
  | same | rearm | cascade => exact .inr ⟨job', hj, rfl, .inl rfl⟩
  | insert =>
    cases hj
    exact .inl ⟨trivial, rfl⟩
  | promote =>
    cases hj
    exact .inr ⟨_, rfl, rfl, .inl rfl⟩
  | @move job m =>
    cases hj
    refine .inr ⟨job, rfl, ?_, .inl (by rw [Move.apply_flow])⟩
    cases m with
    | replace => exact absurd rfl (hreplace _ _)
    | _ => rfl
  | @finish job e =>
    cases hj
    refine .inr ⟨job, rfl, ?_, .inl (by rw [endJob_flow])⟩
    cases e <;> rfl
  | @settle job e =>
    cases hj
    refine .inr ⟨job, rfl, ?_, .inl (by rw [endJob_flow, Option.isSome_map])⟩
    cases e <;> rfl
  | fanOut | refan =>
    cases hj
    exact .inr ⟨_, rfl, rfl, .inr ⟨_, _, _, rfl⟩⟩
  | report =>
    obtain ⟨job, hj', rfl⟩ := Option.map_eq_some_iff.mp hj
    exact .inr ⟨job, hj', rfl, .inl (by rw [countReport, Option.isSome_map])⟩
  | remove | prune => cases hj

/-- A job that an ack leaves has the payload it had. -/
theorem ack_payload {s : Store V} (hk : s.toCore.Keyed) (now : Millis) (id' : JobId)
    (token : String) (outcome : AckOutcome V) {id : JobId} {job' : MemJob V}
    (hj : (exec s now (.ack id' token outcome)).jobs.get? id = some job') :
    ∃ job, s.jobs.get? id = some job ∧ job.payload = job'.payload := by
  let I : View V → Prop := fun v => ∀ job', v.job = some job' →
    ∃ job, s.jobs.get? id = some job ∧ job.payload = job'.payload
  have hI : I ((exec s now (.ack id' token outcome)).toCore.view id) := by
    refine (exec_does hk now _).view hk id (I := I) (fun l v v' hl hstep _ hv job' hj => ?_)
      fun job hj => ⟨job, hj, rfl⟩
    rcases payload_step hstep (by rintro _ _ rfl; cases hl) hj with ⟨hins, _⟩ |
      ⟨mid, hmid, hsame, _⟩
    · cases hl <;> exact hins.elim
    · obtain ⟨job, hj, hpay⟩ := hv mid hmid
      exact ⟨job, hj, hpay.trans hsame⟩
  exact hI job' hj

/-- A marked job after any other operation, enqueues apart, was marked and had its payload. -/
theorem exec_payload {s : Store V} (hk : s.toCore.Keyed) (now : Millis) (op : Op V) {id : JobId}
    (henqueue : ∀ request ids, op ≠ .enqueue request ids)
    (hfans : ∀ token failFast children, op ≠ .ack id token (.fanOut failFast children))
    {job' : MemJob V} (hj : (exec s now op).jobs.get? id = some job')
    (hf : job'.flow.isSome = true) :
    ∃ job, s.jobs.get? id = some job ∧ job.payload = job'.payload ∧ job.flow.isSome = true := by
  let I : View V → Prop := fun v => ∀ job', v.job = some job' → job'.flow.isSome = true →
    ∃ job, s.jobs.get? id = some job ∧ job.payload = job'.payload ∧ job.flow.isSome = true
  have hI : I ((exec s now op).toCore.view id) := by
    refine (exec_does hk now op).view hk id (I := I) (fun l v v' hl hstep _ hv job' hj hf => ?_)
      fun job hj hf => ⟨job, hj, rfl, hf⟩
    have hreplace : ∀ request t, l ≠ .move id (.replace request t) := by
      rintro request t rfl
      cases hl
      exact henqueue _ _ rfl
    rcases payload_step hstep hreplace hj with ⟨_, hnone⟩ | ⟨mid, hmid, hsame, hmark⟩
    · rw [hnone] at hf
      cases hf
    · rcases hmark with hmark | ⟨failFast, children, t, rfl⟩
      · obtain ⟨job, hj, hpay, hjf⟩ := hv mid hmid (hmark.trans hf)
        exact ⟨job, hj, hpay.trans hsame, hjf⟩
      · cases hl
        exact absurd rfl (hfans _ _ _)
  exact hI job' hj hf

/-- The same for an enqueue that keeps the payload of what it replaces. -/
theorem enqueue_payload {s : Store V} (hk : s.toCore.Keyed) {now : Millis}
    {request : EnqueueRequest V} {ids : IdSource}
    (hsafe : ∀ keyed, replaceTarget? s request = some keyed → keyed.flow.isSome = true →
      request.payload = keyed.payload) {id : JobId} {job' : MemJob V}
    (hj : (exec s now (.enqueue request ids)).jobs.get? id = some job')
    (hf : job'.flow.isSome = true) :
    ∃ job, s.jobs.get? id = some job ∧ job.payload = job'.payload ∧ job.flow.isSome = true := by
  have hspec := enqueueOne_spec s now request ids
  rw [exec] at hj
  generalize (enqueueOne s now request ids).1 = result at hspec
  generalize (enqueueOne s now request ids).2 = t at hspec hj
  cases hspec with
  | duplicate | pending | exhausted => exact ⟨job', hj, rfl, hf⟩
  | windowed =>
    split at hj
    · rw [setWindow_toCore] at hj
      exact ⟨job', hj, rfl, hf⟩
    · exact ⟨job', hj, rfl, hf⟩
  | @replaced _ entry keyed ht _ _ hkeyed =>
    rw [signalWake_toCore, setWindow_toCore, putJob_toCore, putJob_get?] at hj
    split at hj
    · rename_i hid
      cases hj
      have hid : entry.jobId = id := (hk _ _ hkeyed).symm.trans hid.symm
      exact ⟨keyed, hid ▸ hkeyed, (hsafe keyed ht hf).symm, hf⟩
    · exact ⟨job', hj, rfl, hf⟩
  | inserted =>
    rw [insertFresh_toCore, putJob_get?] at hj
    split at hj
    · cases hj
      cases hf
    · exact ⟨job', hj, rfl, hf⟩

/-! ## Runs -/

structure OriginInv (s : Origins V) : Prop where
  claims : ClaimsInv s.toClaims
  origin : ∀ id job, s.store.jobs.get? id = some job → job.flow.isSome = true →
    s.origins.get? id = some job.payload

theorem originsAfter_other (s : Origins V) (now : Millis) {id id' : JobId} (token : String)
    (failFast : Bool) (children : List (FlowChildSpec V)) (hne : id ≠ id') :
    (originsAfter s now id' token failFast children).get? id = s.origins.get? id := by
  unfold originsAfter
  split
  · rw [JsMap.get?_set, if_neg hne]
  · rfl

/-- The fan-out ack of a claimed record: the payload it ran with is still the payload of the job. -/
theorem OriginInv.ackFanOut {s : Origins V} (h : OriginInv s) (now : Millis) {id : JobId}
    {token : String} {failFast : Bool} {children : List (FlowChildSpec V)} {job' : MemJob V}
    (hj : (exec s.store now (.ack id token (.fanOut failFast children))).jobs.get? id = some job')
    (hf : job'.flow.isSome = true) :
    (originsAfter s now id token failFast children).get? id = some job'.payload := by
  have hk := h.claims.records.flow.keyed
  obtain ⟨job, hj₀, hpay⟩ := ack_payload hk now id token _ hj
  rw [← hpay]
  cases hres : (ack s.store now id token (.fanOut failFast children)).1 with
  | error e =>
    rw [exec, ack_error hres] at hj
    cases hj₀.symm.trans hj
    simp only [originsAfter, hres]
    exact h.origin id job' hj hf
  | ok u =>
    obtain ⟨job₁, hj₁, _, ht, _⟩ := ack_ok hres
    cases hj₁.symm.trans hj₀
    obtain ⟨record, hr, hsame⟩ := h.claims.locks id job token hj₀ ht
    have hmarked : marked s.store id = job.flow.isSome := by rw [marked, hj₀, Option.any_some]
    cases hmark : job.flow.isSome with
    | true =>
      simp only [originsAfter, hres, hmarked, hmark]
      exact h.origin id job hj₀ hmark
    | false =>
      simp only [originsAfter, hres, hmarked, hmark, hr]
      rw [JsMap.get?_set, if_pos rfl, hsame.payload]

theorem OriginInv.step {s t : Origins V} {e : Millis × Op V} (hs : OriginStep s e t)
    (hsafe : KeepsPayload s e) (h : OriginInv s) : OriginInv t := by
  obtain ⟨hfresh, rfl⟩ := hs
  obtain ⟨now, op⟩ := e
  have hk := h.claims.records.flow.keyed
  refine ⟨h.claims.exec now hfresh, fun id job' hj hf => ?_⟩
  have hj : (exec s.store now op).jobs.get? id = some job' := hj
  by_cases hfans : ∃ token failFast children, op = .ack id token (.fanOut failFast children)
  · obtain ⟨token, failFast, children, rfl⟩ := hfans
    exact h.ackFanOut now hj hf
  · have hkept : ∃ job, s.store.jobs.get? id = some job ∧ job.payload = job'.payload ∧
        job.flow.isSome = true := by
      by_cases henqueue : ∃ request ids, op = .enqueue request ids
      · obtain ⟨request, ids, rfl⟩ := henqueue
        exact enqueue_payload hk hsafe hj hf
      · exact exec_payload hk now op (fun request ids heq => henqueue ⟨_, _, heq⟩)
          (fun token failFast children heq => hfans ⟨_, _, _, heq⟩) hj hf
    obtain ⟨job, hj₀, hpay, hf₀⟩ := hkept
    have horigins : (s.exec now op).origins.get? id = s.origins.get? id := by
      unfold Origins.exec
      simp only
      split
      · refine originsAfter_other s now _ _ _ fun hid => ?_
        subst hid
        exact hfans ⟨_, _, _, rfl⟩
      · rfl
    rw [horigins, ← hpay]
    exact h.origin id job hj₀ hf₀

/-- In every run whose replaces keep the payload of the jobs that have fanned out, a claimed record
that is dispatched to `collect` has the payload its fan-out ran with. -/
theorem phases_share_payload {s : Origins V}
    (h : Reachable OriginStart (fun s e t => OriginStep s e t ∧ KeepsPayload s e) s)
    (now : Millis) (options : ClaimOptions) {record : JobRecord V}
    (hc : (claim s.store now options).1 = .claimed record) (hf : record.flow.isSome = true) :
    s.origins.get? record.id = some record.payload := by
  have hinv : OriginInv s := by
    refine h.induct (I := OriginInv) ?_ fun s e t hs hI => hI.step hs.1 hs.2
    rintro s rfl
    refine ⟨reachable_claimsInv ⟨_, [], rfl, .refl _⟩, fun id job hj => ?_⟩
    cases hj
  obtain ⟨job', hj, rfl, _⟩ := claim_claimed hc
  obtain ⟨job, hj₀, hpay, hf₀⟩ := exec_payload hinv.claims.records.flow.keyed now
    (.claim options) (fun _ _ => nofun) (fun _ _ _ => nofun) hj hf
  rw [show (snapshot job').payload = job.payload from hpay.symm]
  exact hinv.origin _ job hj₀ hf₀

/-! ## A parent rewritten between its phases -/

def flowRequest (payload : ℕ) : EnqueueRequest ℕ :=
  { EnqueueRequest.plain "p" "flow" "q" payload with
    id := none
    attemptsMax := 2
    dedupe := some ⟨"k", none, false, true⟩ }

/-- A flow parent fans out and is runnable again. -/
def fannedOutFlow : List (Millis × Op ℕ) :=
  [(0, .enqueue (flowRequest 1) (.generator ["p"])), (1, .claim ⟨"q", ["flow"], "t", 30⟩),
    (2, .ack "p" "t" (.fanOut false []))]

/-- Its `collect` fails once, and while it is delayed a replace changes its payload. -/
def rewrittenFlow : List (Millis × Op ℕ) :=
  fannedOutFlow ++ [(3, .claim ⟨"q", ["flow"], "u", 30⟩), (4, .ack "p" "u" (.retry 5 none)),
    (5, .enqueue (flowRequest 2) (.generator ["x"]))]

theorem phases_share_payload_fannedOutFlow :
    ∃ (s : Origins ℕ) (record : JobRecord ℕ),
      (claim s.store 3 ⟨"q", ["flow"], "u", 30⟩).1 = .claimed record ∧ record.flow.isSome = true ∧
      s.origins.get? record.id = some record.payload := by
  have hrun : Run (fun s e t => OriginStep s e t ∧ KeepsPayload s e) ⟨⟨Store.empty, ∅⟩, ∅⟩
      fannedOutFlow _ :=
    .cons ⟨⟨trivial, rfl⟩, fun _ h => by cases h⟩ (.cons ⟨⟨rfl, rfl⟩, trivial⟩
      (.cons ⟨⟨trivial, rfl⟩, trivial⟩ (.refl _)))
  exact ⟨_, _, rfl, rfl,
    phases_share_payload ⟨_, _, rfl, hrun⟩ 3 ⟨"q", ["flow"], "u", 30⟩ rfl rfl⟩

/-- `collect` then runs with another payload than `fanOut`. -/
theorem rewrittenFlow_differs :
    ¬ ∀ (s : Origins ℕ) now options record, Reachable OriginStart OriginStep s →
      (claim s.store now options).1 = .claimed record → record.flow.isSome = true →
      s.origins.get? record.id = some record.payload := by
  intro h
  have hrun : Run OriginStep ⟨⟨Store.empty, ∅⟩, ∅⟩ rewrittenFlow _ :=
    .cons ⟨trivial, rfl⟩ (.cons ⟨rfl, rfl⟩ (.cons ⟨trivial, rfl⟩ (.cons ⟨rfl, rfl⟩
      (.cons ⟨trivial, rfl⟩ (.cons ⟨trivial, rfl⟩ (.refl _))))))
  have hsame := h _ 9 ⟨"q", ["flow"], "v", 30⟩ _ ⟨_, _, rfl, hrun⟩ rfl rfl
  cases hsame

end EffectMq.Worker
