import Mathlib.Data.List.Basic

/-! # Two machines under the same calls

A machine answers a call and moves on. One machine follows another when related states answer alike
and stay related, for the calls that the first machine admits in its state. The relation may draw on a
budget, one unit for each call: a run starts with as many units as it has calls (`Follows.run`).
-/

namespace Simulation
set_option autoImplicit false
set_option maxHeartbeats 250000

variable {σ τ ι α β : Type}

/-- What the calls of a list are answered, one after the other. -/
def answers (serve : σ → ι → α × σ) : σ → List ι → List α
  | _, [] => []
  | s, i :: is => (serve s i).1 :: answers serve (serve s i).2 is

def after (serve : σ → ι → α × σ) (s : σ) (is : List ι) : σ :=
  is.foldl (fun s i => (serve s i).2) s

/-- Every call is admitted in the state it meets. -/
def Admitted (serve : σ → ι → α × σ) (admits : σ → ι → Prop) : σ → List ι → Prop
  | _, [] => True
  | s, i :: is => admits s i ∧ Admitted serve admits (serve s i).2 is

/-- `sent` is how the second machine words an answer of the first. -/
def Follows (serve : σ → ι → α × σ) (serve' : τ → ι → β × τ) (sent : α → β) (admits : σ → ι → Prop)
    (R : ℕ → σ → τ → Prop) : Prop :=
  ∀ n s t i, R (n + 1) s t → admits s i →
    (serve' t i).1 = sent (serve s i).1 ∧ R n (serve s i).2 (serve' t i).2

variable {serve : σ → ι → α × σ} {serve' : τ → ι → β × τ} {sent : α → β} {admits : σ → ι → Prop}
  {R : ℕ → σ → τ → Prop}

theorem Follows.run (h : Follows serve serve' sent admits R) {is : List ι} {n : ℕ} {s : σ} {t : τ}
    (hadmitted : Admitted serve admits s is) (hst : R (is.length + n) s t) :
    answers serve' t is = (answers serve s is).map sent ∧ R n (after serve s is) (after serve' t is) := by
  induction is generalizing s t with
  | nil =>
    rw [List.length_nil, Nat.zero_add] at hst
    exact ⟨rfl, hst⟩
  | cons i is ih =>
    have hbudget : is.length + 1 + n = is.length + n + 1 := by omega
    rw [List.length_cons, hbudget] at hst
    obtain ⟨hanswer, hnext⟩ := h _ s t i hst hadmitted.1
    obtain ⟨hanswers, hlast⟩ := ih hadmitted.2 hnext
    refine ⟨?_, hlast⟩
    rw [answers, answers, List.map_cons, hanswer, hanswers]

end Simulation
