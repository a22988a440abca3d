import Mathlib.Data.Rat.Floor

/-! # Rounding to the nearest integer

A half goes to the even neighbour, as in IEEE 754 and in the numeric casts of SQL. The result is the
floor or one more, and `halfEven_eq_floor_iff` says which.
-/

namespace Rounding
set_option autoImplicit false
set_option maxHeartbeats 250000

/-- The remainder is under half the denominator, or it is half of it and the floor is even. -/
def Down (q : ℚ) : Prop :=
  2 * (q.num % q.den) < q.den ∨ 2 * (q.num % q.den) = q.den ∧ ⌊q⌋ % 2 = 0

instance (q : ℚ) : Decidable (Down q) := inferInstanceAs (Decidable (_ ∨ _))

def halfEven (q : ℚ) : ℤ := if Down q then ⌊q⌋ else ⌊q⌋ + 1

theorem halfEven_eq_floor_iff (q : ℚ) : halfEven q = ⌊q⌋ ↔ Down q := by
  unfold halfEven
  split
  · rename_i h
    exact iff_of_true rfl h
  · rename_i h
    exact iff_of_false (by omega) h

theorem fract_mul_den (q : ℚ) : Int.fract q * q.den = ((q.num % q.den : ℤ) : ℚ) := by
  have hmod : q.num % q.den = q.num - ⌊q⌋ * q.den := by
    rw [Rat.floor_def', Int.emod_def, mul_comm]
  rw [hmod, Int.fract, sub_mul, Rat.mul_den_eq_num]
  push_cast
  rfl

theorem down_iff (q : ℚ) : Down q ↔ Int.fract q < 1 / 2 ∨ Int.fract q = 1 / 2 ∧ ⌊q⌋ % 2 = 0 := by
  have hden : (0 : ℚ) < q.den := by exact_mod_cast q.pos
  have hrem := fract_mul_den q
  have hlt : 2 * (q.num % q.den) < q.den ↔ Int.fract q < 1 / 2 := by
    rw [← Int.cast_lt (R := ℚ)]
    push_cast
    rw [← hrem]
    constructor <;> intro h <;> nlinarith
  have heq : 2 * (q.num % q.den) = q.den ↔ Int.fract q = 1 / 2 := by
    rw [← Int.cast_inj (α := ℚ)]
    push_cast
    rw [← hrem]
    constructor
    · intro h
      have hzero : (2 * Int.fract q - 1) * q.den = 0 := by linarith
      rcases mul_eq_zero.mp hzero with hzero | hzero <;> linarith
    · intro h
      rw [h]
      ring
  rw [Down, hlt, heq]

/-- What rounds to a natural number is not below minus a half. -/
theorem halfEven_nonneg_iff (q : ℚ) : 0 ≤ halfEven q ↔ -1 / 2 ≤ q := by
  have hsum := Int.floor_add_fract q
  have hfract := Int.fract_nonneg q
  have hlt := Int.fract_lt_one q
  rcases lt_trichotomy ⌊q⌋ (-1) with hfloor | hfloor | hfloor
  · have hcast : ((⌊q⌋ : ℤ) : ℚ) ≤ -2 := by exact_mod_cast (by omega : ⌊q⌋ ≤ -2)
    refine iff_of_false ?_ (by linarith)
    unfold halfEven
    split <;> omega
  · -- between -1 and 0 the half goes up, to the even neighbour
    rw [hfloor] at hsum
    push_cast at hsum
    have hdown : Down q ↔ q < -1 / 2 := by
      rw [down_iff, hfloor]
      constructor
      · rintro (hdown | ⟨_, hodd⟩)
        · linarith
        · cases hodd
      · intro h
        exact .inl (by linarith)
    unfold halfEven
    split
    · rename_i h
      exact iff_of_false (by omega) (not_le.mpr (hdown.mp h))
    · rename_i h
      exact iff_of_true (by omega) (not_lt.mp (mt hdown.mpr h))
  · have hcast : (0 : ℚ) ≤ (⌊q⌋ : ℤ) := by exact_mod_cast (by omega : 0 ≤ ⌊q⌋)
    refine iff_of_true ?_ (by linarith)
    unfold halfEven
    split <;> omega

/-- A negative number that rounds to a natural one rounds to 0. -/
theorem halfEven_of_neg {q : ℚ} (hneg : q < 0) (h : -1 / 2 ≤ q) : halfEven q = 0 := by
  have hnonneg := (halfEven_nonneg_iff q).mpr h
  have hfloor : ⌊q⌋ < 0 := Int.floor_lt.mpr (by exact_mod_cast hneg)
  have hle : halfEven q ≤ ⌊q⌋ + 1 := by
    unfold halfEven
    split <;> omega
  omega

end Rounding
