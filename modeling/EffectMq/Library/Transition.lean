import Mathlib.Data.List.Basic

/-! # Runs of a labelled transition system

A system is a step relation `step : σ → ε → σ → Prop` over any state and event types. `Run` chains
steps and keeps the events; `Reachable` forgets them.

* `Run.preserves` and `Reachable.induct` are the invariant rules.
* `AtMostOnce.of_done` is the rule for "at most once": an event that makes a permanent fact true,
  and cannot happen once the fact holds, does not happen twice in a run.
-/

namespace Transition
set_option autoImplicit false
set_option maxHeartbeats 250000

variable {σ ε : Type}

/-- `Run step s es t`: the events `es` lead from `s` to `t`, one step each. -/
inductive Run (step : σ → ε → σ → Prop) : σ → List ε → σ → Prop
  | refl (s : σ) : Run step s [] s
  | cons {s t u : σ} {e : ε} {es : List ε} : step s e t → Run step t es u → Run step s (e :: es) u

/-- The states some run from an initial state ends in. -/
def Reachable (init : σ → Prop) (step : σ → ε → σ → Prop) (t : σ) : Prop :=
  ∃ s es, init s ∧ Run step s es t

variable {step : σ → ε → σ → Prop}

theorem Run.single {s t : σ} {e : ε} (h : step s e t) : Run step s [e] t :=
  .cons h (.refl t)

theorem Run.trans {s t u : σ} {es fs : List ε} (h : Run step s es t) (h' : Run step t fs u) :
    Run step s (es ++ fs) u := by
  induction h with
  | refl => exact h'
  | cons hs _ ih => exact .cons hs (ih h')

theorem Run.snoc {s t u : σ} {es : List ε} {e : ε} (h : Run step s es t) (h' : step t e u) :
    Run step s (es ++ [e]) u :=
  h.trans (.single h')

/-- A run of one system is a run of any system that has its steps. -/
theorem Run.mono {step' : σ → ε → σ → Prop} (hstep : ∀ s e t, step s e t → step' s e t)
    {s t : σ} {es : List ε} (h : Run step s es t) : Run step' s es t := by
  induction h with
  | refl => exact .refl _
  | cons hs _ ih => exact .cons (hstep _ _ _ hs) ih

/-- What every step keeps, a run keeps. -/
theorem Run.preserves {I : σ → Prop} (hstep : ∀ s e t, step s e t → I s → I t) {s t : σ}
    {es : List ε} (h : Run step s es t) (hs : I s) : I t := by
  induction h with
  | refl => exact hs
  | cons he _ ih => exact ih (hstep _ _ _ he hs)

/-- A system whose every step is at most one action of a serial machine, seen through `view`: a run
does its actions one after the other. -/
theorem Run.serial {τ α : Type} (act : τ → α → τ) (view : σ → τ) {I : σ → Prop}
    (hkeep : ∀ s e t, step s e t → I s → I t)
    (hact : ∀ s e t, step s e t → I s → view t = view s ∨ ∃ a, view t = act (view s) a)
    {s t : σ} {es : List ε} (h : Run step s es t) (hs : I s) :
    ∃ as : List α, view t = as.foldl act (view s) := by
  induction h with
  | refl => exact ⟨[], rfl⟩
  | @cons s t u e es he _ ih =>
    obtain ⟨as, has⟩ := ih (hkeep _ _ _ he hs)
    rcases hact _ _ _ he hs with heq | ⟨a, ha⟩
    · exact ⟨as, by rw [has, heq]⟩
    · refine ⟨a :: as, ?_⟩
      rw [has, ha, List.foldl_cons]

theorem Reachable.run {init : σ → Prop} {s t : σ} {es : List ε} (h : Reachable init step s)
    (h' : Run step s es t) : Reachable init step t := by
  obtain ⟨s₀, fs, hi, hr⟩ := h
  exact ⟨s₀, fs ++ es, hi, hr.trans h'⟩

theorem Reachable.next {init : σ → Prop} {s t : σ} {e : ε} (h : Reachable init step s)
    (h' : step s e t) : Reachable init step t :=
  h.run (.single h')

/-- The invariant rule. -/
theorem Reachable.induct {init : σ → Prop} {I : σ → Prop} (hinit : ∀ s, init s → I s)
    (hstep : ∀ s e t, step s e t → I s → I t) {t : σ} (h : Reachable init step t) : I t := by
  obtain ⟨s, es, hi, hr⟩ := h
  exact hr.preserves hstep (hinit s hi)

/-- No run from an initial state takes two `P` steps. -/
def AtMostOnce (init : σ → Prop) (step : σ → ε → σ → Prop) (P : σ → ε → σ → Prop) : Prop :=
  ∀ ⦃a b c d : σ⦄ ⦃e f : ε⦄ ⦃es : List ε⦄, Reachable init step a → step a e b → P a e b →
    Run step b es c → step c f d → ¬ P c f d

/-- `P` steps make the permanent fact `D` true and are impossible once it holds. -/
theorem AtMostOnce.of_done {init : σ → Prop} {P : σ → ε → σ → Prop} {I D : σ → Prop}
    (hI : ∀ s, Reachable init step s → I s)
    (hset : ∀ s e t, I s → step s e t → P s e t → D t)
    (hkeep : ∀ s e t, I s → step s e t → D s → D t)
    (hno : ∀ s e t, I s → step s e t → D s → ¬ P s e t) : AtMostOnce init step P := by
  intro a b c d e f es ha h₁ hP hr h₂
  let R : σ → Prop := fun s => Reachable init step s ∧ D s
  have hb : R b := ⟨ha.next h₁, hset a e b (hI a ha) h₁ hP⟩
  have hc : R c := hr.preserves
    (fun s e t hs ⟨hreach, hd⟩ => ⟨hreach.next hs, hkeep s e t (hI s hreach) hs hd⟩) hb
  exact hno c f d (hI c hc.1) h₂ hc.2

theorem AtMostOnce.mono {init : σ → Prop} {P Q : σ → ε → σ → Prop}
    (hQ : ∀ s e t, Reachable init step s → step s e t → Q s e t → P s e t)
    (h : AtMostOnce init step P) : AtMostOnce init step Q := by
  intro a b c d e f es ha h₁ hq hr h₂ hq'
  exact h ha h₁ (hQ a e b ha h₁ hq) hr h₂ (hQ c f d ((ha.next h₁).run hr) h₂ hq')

/-! ## Every state and every step of a run -/

/-- `C` holds in every state along the events `es` from `s` to `u`. -/
def Always (step : σ → ε → σ → Prop) (s : σ) (es : List ε) (u : σ) (C : σ → Prop) : Prop :=
  ∀ es₁ es₂ t, es = es₁ ++ es₂ → Run step s es₁ t → Run step t es₂ u → C t

/-- `P` holds of every step along the events `es` from `s` to `u`. -/
def EachStep (step : σ → ε → σ → Prop) (s : σ) (es : List ε) (u : σ) (P : σ → ε → Prop) : Prop :=
  ∀ es₁ e es₂ t t', es = es₁ ++ e :: es₂ → Run step s es₁ t → step t e t' → Run step t' es₂ u → P t e

/-- What every safe step keeps holds in every state of a run whose steps are all safe. -/
theorem EachStep.always {C : σ → Prop} {safe : σ → ε → Prop} {s u : σ} {es : List ε}
    (hsafe : EachStep step s es u safe)
    (hstep : ∀ s e t, step s e t → safe s e → C s → C t) (hC : C s) : Always step s es u C := by
  rintro es₁ es₂ t rfl hr₁ hr₂
  induction hr₁ with
  | refl => exact hC
  | @cons s t t' e es hs hr ih =>
    have hfirst := hsafe [] e (es ++ es₂) s t rfl (.refl s) hs (hr.trans hr₂)
    refine ih (hstep _ _ _ hs hfirst hC) ?_ hr₂
    rintro fs₁ f fs₂ a b heq hra hsab hrb
    refine hsafe (e :: fs₁) f fs₂ a b ?_ (.cons hs hra) hsab hrb
    rw [List.cons_append, heq, List.cons_append]

/-- A property of the state after a step, in every state, is a property of every step. -/
theorem Always.eachStep {C : σ → Prop} {P : σ → ε → Prop} {s u : σ} {es : List ε}
    (hall : Always step s es u C) (h : ∀ s e t, step s e t → C s → C t → P s e) :
    EachStep step s es u P := by
  rintro es₁ e es₂ t t' rfl hr₁ hs hr₂
  have ht := hall es₁ (e :: es₂) t rfl hr₁ (.cons hs hr₂)
  have ht' := hall (es₁ ++ [e]) es₂ t' (by simp) (hr₁.snoc hs) hr₂
  exact h t e t' hs ht ht'

theorem Always.mono {C D : σ → Prop} (hCD : ∀ s, C s → D s) {s u : σ} {es : List ε}
    (h : Always step s es u C) : Always step s es u D :=
  fun es₁ es₂ t heq hr₁ hr₂ => hCD t (h es₁ es₂ t heq hr₁ hr₂)

/-- What every step keeps holds in every state. -/
theorem Always.of_kept {I : σ → Prop} (hkeep : ∀ s e t, step s e t → I s → I t) {s u : σ}
    {es : List ε} (hI : I s) : Always step s es u I :=
  fun _ _ _ _ hr₁ _ => hr₁.preserves hkeep hI

/-- Along a run `C` holds in every state exactly if every step is `safe`, when a step from a state
with `C` reaches one exactly if it is safe. `I` is what the steps keep in any case. -/
theorem Run.all_iff {I C : σ → Prop} {safe : σ → ε → Prop}
    (hkeep : ∀ s e t, step s e t → I s → I t)
    (hstep : ∀ s e t, step s e t → I s → C s → (C t ↔ safe s e)) {s u : σ} {es : List ε}
    (hI : I s) (hC : C s) (_h : Run step s es u) :
    Always step s es u C ↔ EachStep step s es u safe := by
  constructor
  · intro hall
    have hboth : Always step s es u fun s => I s ∧ C s := fun es₁ es₂ t heq hr₁ hr₂ =>
      ⟨hr₁.preserves hkeep hI, hall es₁ es₂ t heq hr₁ hr₂⟩
    exact hboth.eachStep fun s e t hs h h' => (hstep s e t hs h.1 h.2).mp h'.2
  · intro hsafe
    refine (hsafe.always (C := fun s => I s ∧ C s) ?_ ⟨hI, hC⟩).mono fun s h => h.2
    exact fun s e t hs hsafe ⟨hI, hC⟩ => ⟨hkeep s e t hs hI, (hstep s e t hs hI hC).mpr hsafe⟩

end Transition
