import EffectMq.MemoryJobStore.OneInFlight

/-! # Windows keep inserts apart

An enqueue with a ttl leaves a window under its registry key, and until the window is over no
operation takes it away or ends it earlier (`Armed`). The runs carry the clock. An enqueue that
resumes after its id generator has a clock reading from before.
-/

namespace EffectMq.Memory
set_option autoImplicit false
set_option maxHeartbeats 250000

open Transition

variable {V : Type}

/-! ## Runs with a clock -/

structure Clocked (V : Type) where
  store : Store V
  clock : Millis

/-- The clock does not go back; a resumed enqueue has read it earlier. -/
def Reads (clock : Millis) : Millis × Op V → Prop
  | (now, .resumeEnqueue _ _) => now ≤ clock
  | (now, _) => clock ≤ now

def ClockStep (s : Clocked V) (event : Millis × Op V) (t : Clocked V) : Prop :=
  Reads s.clock event ∧ t = ⟨exec s.store event.1 event.2, max s.clock event.1⟩

def ClockStart (s : Clocked V) : Prop := s.store = Store.empty

section

variable (name key : String)

/-- Enqueues of the key all carry this ttl and no replace, and schedule ticks have no dedup policy. -/
def ThrottledFor (ttl : WithTop Millis) : Op V → Prop
  | .enqueue request _ | .resumeEnqueue request _ =>
    RequestFor name key request →
      ∀ dedupe, request.dedupe = some dedupe → dedupe.ttlMs = some ttl ∧ dedupe.replace = false
  | .tickSchedule _ _ _ request => request.dedupe = none
  | _ => True

/-- No request of another name and key under the same registry key, and no resumed enqueue of the key
that would now be deduplicated. -/
def KeepsWindow (s : Clocked V) : Millis × Op V → Prop
  | (_, .enqueue request _) => KeyedApart name key request
  | (now, .resumeEnqueue request _) =>
    KeyedApart name key request ∧
    (RequestFor name key request → enqueueDecision s.store now request = none)
  | _ => True

def WindowStep (ttl : WithTop Millis) (s : Clocked V) (event : Millis × Op V) (t : Clocked V) :
    Prop :=
  ClockStep s event t ∧ ThrottledFor name key ttl event.2 ∧ KeepsWindow name key s event

/-- The operation inserts a job of the key. -/
def InsertsFor (s : Store V) : Millis × Op V → Prop
  | (now, .enqueue request ids) =>
    RequestFor name key request ∧ ∃ id, (enqueueOne s now request ids).1 = .ok ⟨id, false⟩
  | (_, .resumeEnqueue request candidate) =>
    RequestFor name key request ∧ s.jobs.has candidate = false
  | _ => False

/-- The operation inserts a job of the key, or is a debounced enqueue that a live window absorbs. -/
def ArmsFor (s : Store V) (event : Millis × Op V) : Prop :=
  InsertsFor name key s event ∨
  ∃ request ids dedupe entry, event.2 = .enqueue request ids ∧ RequestFor name key request ∧
    request.id.filter s.jobs.has = none ∧ request.dedupe = some dedupe ∧ dedupe.extend = true ∧
    s.dedupes.get? (dedupeMapKey name key) = some entry ∧ entry.live event.1 = true

/-- A window of the key that lasts until `bound` at least. -/
def Armed (bound : WithTop Millis) (s : Store V) : Prop :=
  ∃ entry t, s.dedupes.get? (dedupeMapKey name key) = some entry ∧ entry.expiresAt = some t ∧
    bound ≤ t

end

section

variable {name key : String} {ttl bound : WithTop Millis}

theorem DedupeEntry.Dead.over {entry : DedupeEntry} {s : Store V} {now : Millis}
    {t : WithTop Millis} (h : entry.Dead s now) (ht : entry.expiresAt = some t) : t ≤ now := by
  have hlive := h.1
  rw [DedupeEntry.live, ht] at hlive
  exact not_lt.mp (of_decide_eq_false hlive)

theorem DedupeEntry.over_of_spent {entry : DedupeEntry} {now : Millis} {t : WithTop Millis}
    (h : entry.spent now = true) (ht : entry.expiresAt = some t) : t ≤ now := by
  rw [DedupeEntry.spent, ht] at h
  exact of_decide_eq_true h

theorem Armed.of_entry {s t : Store V} (h : Armed name key bound s)
    (heq : t.dedupes.get? (dedupeMapKey name key) = s.dedupes.get? (dedupeMapKey name key)) :
    Armed name key bound t := by
  obtain ⟨entry, end_, he, ht, hle⟩ := h
  exact ⟨entry, end_, heq.trans he, ht, hle⟩

/-- A window that dedup takes over is over. -/
theorem Armed.over {s : Store V} (h : Armed name key bound s) {now : Millis}
    (hdead : ∀ entry, s.dedupes.get? (dedupeMapKey name key) = some entry → entry.Dead s now) :
    bound ≤ now := by
  obtain ⟨entry, end_, he, ht, hle⟩ := h
  exact hle.trans ((hdead entry he).over ht)

theorem insertFresh_armed {s : Store V} {now : Millis} {request : EnqueueRequest V} {id : JobId}
    (hr : RequestFor name key request)
    (httl : ∀ dedupe, request.dedupe = some dedupe → dedupe.ttlMs = some ttl ∧ dedupe.replace = false) :
    Armed name key (now + ttl) (insertFresh s now request id) := by
  obtain ⟨dedupe, hd, _⟩ := Option.map_eq_some_iff.mp hr.2
  refine ⟨⟨id, some (now + ttl)⟩, now + ttl, ?_, rfl, le_rfl⟩
  rw [insertFresh_entry, if_pos hr.mapKey?, hd, Option.map_some, (httl dedupe hd).1]
  rfl

theorem setWindow_armed {s : Store V} (now : Millis) (ttl : WithTop Millis) {entry : DedupeEntry}
    (he : s.dedupes.get? (dedupeMapKey name key) = some entry) :
    Armed name key (now + ttl) (setWindow s (dedupeMapKey name key) now (some ttl)) := by
  refine ⟨{ entry with expiresAt := some (now + ttl) }, now + ttl, ?_, rfl, le_rfl⟩
  rw [setWindow, JsMap.get?_modify, if_pos rfl, he]
  rfl

theorem insertFresh_other {s : Store V} {now : Millis} {request : EnqueueRequest V} {id : JobId}
    (hapart : KeyedApart name key request) (hr : ¬ RequestFor name key request) :
    (insertFresh s now request id).dedupes.get? (dedupeMapKey name key) =
      s.dedupes.get? (dedupeMapKey name key) := by
  rw [insertFresh_entry, if_neg fun hkey => hr (hapart hkey)]

theorem Armed.enqueue {s : Store V} (h : Armed name key bound s) {now : Millis}
    {request : EnqueueRequest V} {ids : IdSource} (hbound : bound ≤ now + ttl)
    (hapart : KeyedApart name key request)
    (httl : ThrottledFor name key ttl (.enqueue request ids)) :
    Armed name key bound (enqueueOne s now request ids).2 ∨ bound ≤ now := by
  have hspec := enqueueOne_spec s now request ids
  generalize (enqueueOne s now request ids).1 = result at hspec
  generalize (enqueueOne s now request ids).2 = t at hspec ⊢
  by_cases hr : RequestFor name key request
  · obtain ⟨dedupe, hd, hkey⟩ := Option.map_eq_some_iff.mp hr.2
    have hmap : dedupeMapKey request.name dedupe.key = dedupeMapKey name key := by rw [hr.1, hkey]
    cases hspec with
    | duplicate | pending | exhausted => exact .inl h
    | windowed _ hd' he =>
      cases hd.symm.trans hd'
      refine .inl ?_
      split
      · rw [hmap, (httl hr dedupe hd).1]
        rw [hmap] at he
        obtain ⟨entry, end_, he', ht, hle⟩ := setWindow_armed now ttl he
        exact ⟨entry, end_, he', ht, hbound.trans hle⟩
      · exact h
    | replaced _ hd' _ _ _ hreplace =>
      cases hd.symm.trans hd'
      rw [(httl hr dedupe hd).2] at hreplace
      cases hreplace
    | inserted _ _ _ _ hdead =>
      refine .inr (h.over fun entry he => hdead dedupe hd entry ?_)
      rwa [hmap]
  · refine .inl ?_
    cases hspec with
    | duplicate | pending | exhausted => exact h
    | windowed _ hd =>
      split
      · exact h.of_entry (setWindow_other hapart hr hd _)
      · exact h
    | @replaced _ _ keyed _ hd =>
      refine h.of_entry ?_
      rw [signalWake_dedupes]
      exact setWindow_other (s := s.putJob (replaceJob keyed request now)) hapart hr hd _
    | inserted counter => exact h.of_entry (insertFresh_other hapart hr)

/-- A window stays until it is over. -/
theorem Armed.exec {s : Clocked V} (hk : s.store.toCore.Keyed) (h : Armed name key bound s.store)
    (hbound : bound ≤ s.clock + ttl) {now : Millis} {op : Op V} (hread : Reads s.clock (now, op))
    (httl : ThrottledFor name key ttl op) (hsafe : KeepsWindow name key s (now, op)) :
    Armed name key bound (Memory.exec s.store now op) ∨ bound ≤ (max s.clock now : Millis) := by
  have hclock : bound ≤ now → bound ≤ (max s.clock now : Millis) := fun hle =>
    hle.trans (WithTop.coe_le_coe.mpr (le_max_right _ _))
  by_cases hop : op.Opens
  · cases op with
    | enqueue request ids =>
      have hle : (s.clock : WithTop Millis) ≤ now := WithTop.coe_le_coe.mpr hread
      have hbound : bound ≤ now + ttl := hbound.trans (by gcongr)
      exact (h.enqueue hbound hsafe httl).imp_right hclock
    | resumeEnqueue request candidate =>
      show Armed name key bound (resumeEnqueue s.store now request candidate).2 ∨ _
      rcases resumeEnqueue_cases s.store now request candidate with heq | ⟨_, heq⟩
      · rw [heq]
        exact .inl h
      · rw [heq]
        by_cases hr : RequestFor name key request
        · exact .inr (hclock (h.over fun entry he => dead_of_decision (hsafe.2 hr) hr he))
        · exact .inl (h.of_entry (insertFresh_other hsafe.1 hr))
    | tickSchedule skey expectedRunAt nextRunAt request =>
      refine .inl (h.of_entry ?_)
      exact congrArg (JsMap.get? · _)
        (tickSchedule_dedupes s.store now skey expectedRunAt nextRunAt request)
    | retry id =>
      exact .inl (h.of_entry (congrArg (JsMap.get? · _) (retry_dedupes s.store now id)))
    | _ => exact hop.elim
  · obtain ⟨entry, end_, he, ht, hle⟩ := h
    rcases (exec_frees hk now hop).freed _ _ he with hkept | ⟨hspent, _⟩
    · exact .inl ⟨entry, end_, hkept, ht, hle⟩
    · exact .inr (hclock (hle.trans (entry.over_of_spent hspent ht)))

/-- The window of an enqueue that inserts, or that extends a live window. -/
theorem ArmsFor.armed {s : Clocked V} {event : Millis × Op V} {t : Clocked V}
    (h : ArmsFor name key s.store event) (hs : WindowStep name key ttl s event t) :
    Armed name key (event.1 + ttl) t.store := by
  obtain ⟨⟨_, rfl⟩, httl, _⟩ := hs
  obtain ⟨now, op⟩ := event
  rcases h with hins | ⟨request, ids, dedupe, entry, heq, hr, hid, hd, hext, he, hlive⟩
  · cases op with
    | enqueue request ids =>
      obtain ⟨hr, id, hres⟩ := hins
      have hspec := enqueueOne_spec s.store now request ids
      show Armed name key (now + ttl) (enqueueOne s.store now request ids).2
      rw [hres] at hspec
      generalize (enqueueOne s.store now request ids).2 = u at hspec ⊢
      cases hspec with
      | inserted => exact insertFresh_armed hr (httl hr)
    | resumeEnqueue request candidate =>
      obtain ⟨hr, hfree⟩ := hins
      show Armed name key (now + ttl) (resumeEnqueue s.store now request candidate).2
      rw [resumeEnqueue, if_neg (by rw [hfree]; decide)]
      exact insertFresh_armed hr (httl hr)
    | _ => exact hins.elim
  · cases heq
    have hspec := enqueueOne_spec s.store now request ids
    obtain ⟨_, hd', hkey⟩ := Option.map_eq_some_iff.mp hr.2
    cases hd.symm.trans hd'
    have hmap : dedupeMapKey request.name dedupe.key = dedupeMapKey name key := by rw [hr.1, hkey]
    show Armed name key (now + ttl) (enqueueOne s.store now request ids).2
    generalize (enqueueOne s.store now request ids).1 = result at hspec
    generalize (enqueueOne s.store now request ids).2 = u at hspec ⊢
    cases hspec with
    | duplicate _ hi hhas =>
      rw [hi, Option.filter_some, if_pos hhas] at hid
      cases hid
    | replaced _ hd' _ _ _ hreplace =>
      cases hd.symm.trans hd'
      rw [(httl hr dedupe hd).2] at hreplace
      cases hreplace
    | windowed _ hd' =>
      cases hd.symm.trans hd'
      rw [if_pos hext, hmap, (httl hr dedupe hd).1]
      exact setWindow_armed now ttl he
    | pending _ hd' he' hexp =>
      cases hd.symm.trans hd'
      rw [hmap] at he'
      cases he.symm.trans he'
      rw [DedupeEntry.live, hexp] at hlive
      cases hlive
    | inserted _ _ _ _ hdead =>
      have hdead := (hdead dedupe hd entry (by rwa [hmap])).1
      rw [hlive] at hdead
      cases hdead
    | exhausted _ _ hdec =>
      have hdead := (dead_of_decision hdec hr he).1
      rw [hlive] at hdead
      cases hdead

/-- An insert finds no window of its key. -/
theorem InsertsFor.over {s : Clocked V} {now : Millis} {op : Op V}
    (h : InsertsFor name key s.store (now, op)) (hsafe : KeepsWindow name key s (now, op))
    (harmed : Armed name key bound s.store) : bound ≤ now := by
  cases op with
  | enqueue request ids =>
    obtain ⟨hr, id, hres⟩ := h
    have hspec := enqueueOne_spec s.store now request ids
    rw [hres] at hspec
    generalize (enqueueOne s.store now request ids).2 = u at hspec
    cases hspec with
    | inserted _ _ _ _ _ hdec => exact harmed.over fun entry he => dead_of_decision hdec hr he
  | resumeEnqueue request candidate =>
    exact harmed.over fun entry he => dead_of_decision (hsafe.2 h.1) h.1 he
  | _ => exact h.elim

end

/-- In every run whose registry keys and resumed enqueues meet the conditions: after an enqueue of the
key at clock reading `now` that inserted a job, or that a live window absorbed and that extends it, no
enqueue of the key inserts a job before `now + ttl`, and none at all where the ttl is infinite. -/
theorem inserts_spaced {name key : String} {ttl : WithTop Millis} {s t u v : Clocked V}
    (h : Reachable ClockStart (WindowStep name key ttl) s) {now : Millis} {op : Op V}
    (harm : ArmsFor name key s.store (now, op)) (hs : WindowStep name key ttl s (now, op) t)
    {es : List (Millis × Op V)} (hr : Run (WindowStep name key ttl) t es u) {event : Millis × Op V}
    (hins : InsertsFor name key u.store event) (hlast : WindowStep name key ttl u event v) :
    now + ttl ≤ (v.clock : WithTop Millis) := by
  have hkeyed : ∀ s e t, WindowStep name key ttl (V := V) s e t → s.store.toCore.Keyed →
      t.store.toCore.Keyed := by
    rintro s ⟨now, op⟩ t ⟨⟨_, rfl⟩, _⟩ hk
    exact exec_keyed hk now op
  have hk : s.store.toCore.Keyed := by
    refine h.induct (I := fun s => s.store.toCore.Keyed) ?_ hkeyed
    rintro s hs
    rw [hs]
    intro _ _ hj
    cases hj
  let I : Clocked V → Prop := fun s => s.store.toCore.Keyed ∧ now ≤ s.clock ∧
    (Armed name key (now + ttl) s.store ∨ now + ttl ≤ (s.clock : WithTop Millis))
  have hstep : ∀ s e t, WindowStep name key ttl s e t → I s → I t := by
    rintro s ⟨now', op'⟩ t hs ⟨hk, hle, harmed⟩
    refine ⟨hkeyed _ _ _ hs hk, ?_⟩
    obtain ⟨⟨hread, rfl⟩, httl, hsafe⟩ := hs
    have hclock : s.clock ≤ max s.clock now' := le_max_left _ _
    refine ⟨hle.trans hclock, ?_⟩
    have hle : (now : WithTop Millis) ≤ s.clock := WithTop.coe_le_coe.mpr hle
    rcases harmed with harmed | hover
    · exact harmed.exec hk (by gcongr) hread httl hsafe
    · exact .inr (hover.trans (WithTop.coe_le_coe.mpr hclock))
  have hfirst : I t := by
    have hread : now ≤ t.clock := by
      obtain ⟨⟨_, rfl⟩, _⟩ := hs
      exact le_max_right _ _
    exact ⟨hkeyed _ _ _ hs hk, hread, .inl (harm.armed hs)⟩
  obtain ⟨_, _, harmed⟩ := hr.preserves hstep hfirst
  obtain ⟨⟨_, rfl⟩, _, hsafe⟩ := hlast
  rcases harmed with harmed | hover
  · exact (hins.over hsafe harmed).trans (WithTop.coe_le_coe.mpr (le_max_right _ _))
  · exact hover.trans (WithTop.coe_le_coe.mpr (le_max_left _ _))

/-! ## Two inserts in one window -/

def throttledRequest (id? : Option JobId) : EnqueueRequest Unit :=
  { EnqueueRequest.plain "" "sync" "q" () with
    id := id?, dedupe := some ⟨"k", some (100 : Millis), false, false⟩ }

theorem throttledRequest_ttl (id? : Option JobId) (dedupe : DedupePolicy)
    (hd : (throttledRequest id?).dedupe = some dedupe) :
    dedupe.ttlMs = some ((100 : Millis) : WithTop Millis) ∧ dedupe.replace = false := by
  cases hd
  exact ⟨rfl, rfl⟩

theorem inserts_spaced_nextWindow :
    ∃ v : Clocked Unit, v.store.jobs.size = 2 ∧
      ((0 : Millis) : WithTop Millis) + (100 : Millis) ≤ v.clock := by
  let s : Clocked Unit := ⟨Store.empty, 0⟩
  let first : Op Unit := .enqueue (throttledRequest (some "a")) .counter
  let t : Clocked Unit := ⟨exec s.store 0 first, 0⟩
  let last : Op Unit := .enqueue (throttledRequest (some "b")) .counter
  have hs : WindowStep "sync" "k" (100 : Millis) s (0, first) t :=
    ⟨⟨le_rfl, rfl⟩, fun _ => throttledRequest_ttl _, fun _ => ⟨rfl, rfl⟩⟩
  have harm : ArmsFor "sync" "k" s.store (0, first) := .inl ⟨⟨rfl, rfl⟩, "a", rfl⟩
  have hins : InsertsFor "sync" "k" t.store (100, last) := ⟨⟨rfl, rfl⟩, "b", rfl⟩
  have hlast : WindowStep "sync" "k" (100 : Millis) t (100, last) ⟨exec t.store 100 last, 100⟩ :=
    ⟨⟨show (0 : Millis) ≤ 100 by decide, rfl⟩, fun _ => throttledRequest_ttl _, fun _ => ⟨rfl, rfl⟩⟩
  exact ⟨_, rfl, inserts_spaced ⟨s, [], rfl, .refl s⟩ harm hs (.refl _) hins hlast⟩

/-- Two enqueues that were let in before either had its id from the generator. -/
theorem resumed_in_one_window :
    ¬ ∀ (s t u v : Clocked Unit) (now : Millis) (op : Op Unit) (es : List (Millis × Op Unit))
      (event : Millis × Op Unit),
      Reachable ClockStart (fun s e t => ClockStep s e t ∧ ThrottledFor "sync" "k" (100 : Millis) e.2) s →
      ArmsFor "sync" "k" s.store (now, op) →
      (ClockStep s (now, op) t ∧ ThrottledFor "sync" "k" (100 : Millis) op) →
      Run (fun s e t => ClockStep s e t ∧ ThrottledFor "sync" "k" (100 : Millis) e.2) t es u →
      InsertsFor "sync" "k" u.store event →
      (ClockStep u event v ∧ ThrottledFor "sync" "k" (100 : Millis) event.2) → now + 100 ≤ v.clock := by
  intro h
  let s : Clocked Unit := ⟨Store.empty, 0⟩
  let first : Op Unit := .resumeEnqueue (throttledRequest none) "a"
  let t : Clocked Unit := ⟨exec s.store 0 first, 0⟩
  let last : Op Unit := .resumeEnqueue (throttledRequest none) "b"
  have hs : ClockStep s (0, first) t ∧ ThrottledFor "sync" "k" (100 : Millis) first :=
    ⟨⟨le_rfl, rfl⟩, fun _ => throttledRequest_ttl _⟩
  have harm : ArmsFor "sync" "k" s.store (0, first) := .inl ⟨⟨rfl, rfl⟩, rfl⟩
  have hins : InsertsFor "sync" "k" t.store (0, last) := ⟨⟨rfl, rfl⟩, rfl⟩
  have hlast : ClockStep t (0, last) ⟨exec t.store 0 last, 0⟩ ∧ ThrottledFor "sync" "k" (100 : Millis) last :=
    ⟨⟨le_rfl, rfl⟩, fun _ => throttledRequest_ttl _⟩
  have hlate := h s t t _ 0 first [] (0, last) ⟨s, [], rfl, .refl s⟩ harm hs (.refl _) hins hlast
  exact absurd hlate (by decide)

end EffectMq.Memory
