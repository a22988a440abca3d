import Mathlib.Control.Basic
import Mathlib.Data.List.Basic

/-! # Calls

A call runs on a state, answers or fails, and leaves a state either way. One call simulates another
when from related states they answer alike and leave related states.
-/

set_option autoImplicit false
set_option maxHeartbeats 250000

abbrev Call (ε σ : Type) := ExceptT ε (StateM σ)

namespace Call

variable {ε σ τ α β : Type}

/-- A statement that fails leaves the state as it was. -/
def atomic (f : σ → Except ε (α × σ)) : Call ε σ α := fun s =>
  match f s with
  | .ok (a, s') => (.ok a, s')
  | .error e => (.error e, s)

theorem bind_ok {x : Call ε σ α} {f : α → Call ε σ β} {s s' : σ} {a : α} (h : x s = (.ok a, s')) :
    (x >>= f) s = f a s' := by
  change (match x s with | (a, s) => ExceptT.bindCont f a s) = _
  rw [h]
  rfl

theorem bind_error {x : Call ε σ α} {f : α → Call ε σ β} {s s' : σ} {e : ε}
    (h : x s = (.error e, s')) : (x >>= f) s = (.error e, s') := by
  change (match x s with | (a, s) => ExceptT.bindCont f a s) = _
  rw [h]
  rfl

def Simulates (R : σ → τ → Prop) (x : Call ε σ α) (y : Call ε τ α) : Prop :=
  ∀ s t, R s t → (x s).1 = (y t).1 ∧ R (x s).2 (y t).2

namespace Simulates

variable {R : σ → τ → Prop}

theorem pure (a : α) : Simulates R (Pure.pure a : Call ε σ α) (Pure.pure a) :=
  fun _ _ h => ⟨rfl, h⟩

theorem bind {x : Call ε σ α} {y : Call ε τ α} {f : α → Call ε σ β} {g : α → Call ε τ β}
    (hxy : Simulates R x y) (hfg : ∀ a, Simulates R (f a) (g a)) :
    Simulates R (x >>= f) (y >>= g) := by
  intro s t h
  obtain ⟨hanswer, hleft⟩ := hxy s t h
  cases hx : x s with
  | mk answer s' =>
    cases hy : y t with
    | mk answer' t' =>
      rw [hx, hy] at hanswer hleft
      dsimp only at hanswer hleft
      subst hanswer
      cases answer with
      | ok a =>
        rw [bind_ok hx, bind_ok hy]
        exact hfg a s' t' hleft
      | error e =>
        rw [bind_error hx, bind_error hy]
        exact ⟨rfl, hleft⟩

theorem foldlM {x : β → α → Call ε σ β} {y : β → α → Call ε τ β}  {as : List α}
    (h : ∀ b, ∀ a ∈ as, Simulates R (x b a) (y b a)) (b : β) :
    Simulates R (as.foldlM x b) (as.foldlM y b) := by
  induction as generalizing b with
  | nil => exact pure b
  | cons a as ih =>
    rw [List.foldlM_cons, List.foldlM_cons]
    refine (h b a List.mem_cons_self).bind fun b => ?_
    exact ih (fun b a ha => h b a (List.mem_cons_of_mem _ ha)) b

/-- Two statements that answer alike and leave related states, or fail alike. -/
theorem atomic {f : σ → Except ε (α × σ)} {g : τ → Except ε (α × τ)}
    (h : ∀ s t, R s t → (∃ a s' t', f s = .ok (a, s') ∧ g t = .ok (a, t') ∧ R s' t') ∨
      ∃ e, f s = .error e ∧ g t = .error e) :
    Simulates R (Call.atomic f) (Call.atomic g) := by
  intro s t hst
  unfold Call.atomic
  rcases h s t hst with ⟨a, s', t', hf, hg, hleft⟩ | ⟨e, hf, hg⟩
  · rw [hf, hg]
    exact ⟨rfl, hleft⟩
  · rw [hf, hg]
    exact ⟨rfl, hst⟩

theorem of_eq {x y : Call ε σ α} (h : ∀ s, x s = y s) : Simulates Eq x y := by
  rintro s t rfl
  rw [h s]
  exact ⟨rfl, rfl⟩

end Simulates

end Call
