import Mathlib.Data.List.Basic
import Std.Data.String.ToNat

/-! # Unambiguous string codes

Two ways to cut a concatenation so that its parts can be read back: a separator that does not occur
before it, and a length written in front. Lengths may be weighted, as in UTF-16, where some
characters count twice.
-/

namespace Codes
set_option autoImplicit false
set_option maxHeartbeats 250000

variable {α : Type}

/-- Cutting at the first separator. -/
theorem cut_separator {xs xs' ys ys' : List α} {c : α} (hx : c ∉ xs) (hx' : c ∉ xs')
    (h : xs ++ c :: ys = xs' ++ c :: ys') : xs = xs' ∧ ys = ys' := by
  induction xs generalizing xs' with
  | nil =>
    cases xs' with
    | nil => exact ⟨rfl, (List.cons.inj h).2⟩
    | cons a xs' =>
      obtain ⟨rfl, _⟩ := List.cons.inj h
      exact absurd List.mem_cons_self hx'
  | cons a xs ih =>
    cases xs' with
    | nil =>
      obtain ⟨rfl, _⟩ := List.cons.inj h
      exact absurd List.mem_cons_self hx
    | cons a' xs' =>
      obtain ⟨rfl, htail⟩ := List.cons.inj h
      rw [List.mem_cons, not_or] at hx hx'
      obtain ⟨rfl, hy⟩ := ih hx.2 hx'.2 htail
      exact ⟨rfl, hy⟩

/-- The length of a list whose elements have weights. -/
def weight (w : α → ℕ) (xs : List α) : ℕ := xs.foldr (fun a n => w a + n) 0

theorem weight_cons (w : α → ℕ) (a : α) (xs : List α) : weight w (a :: xs) = w a + weight w xs := rfl

theorem length_flatMap_weight {β : Type} (f : α → List β) (xs : List α) :
    (xs.flatMap f).length = weight (fun a => (f a).length) xs := by
  induction xs with
  | nil => rfl
  | cons a xs ih => rw [List.flatMap_cons, List.length_append, ih, weight_cons]

/-- Cutting at a known weight. -/
theorem cut_weight {w : α → ℕ} (hw : ∀ a, 0 < w a) {xs xs' ys ys' : List α}
    (hlen : weight w xs = weight w xs') (h : xs ++ ys = xs' ++ ys') : xs = xs' ∧ ys = ys' := by
  induction xs generalizing xs' with
  | nil =>
    cases xs' with
    | nil => exact ⟨rfl, h⟩
    | cons a xs' =>
      have hpos := hw a
      rw [weight_cons] at hlen
      have hzero : weight w ([] : List α) = 0 := rfl
      omega
  | cons a xs ih =>
    cases xs' with
    | nil =>
      have hpos := hw a
      rw [weight_cons] at hlen
      have hzero : weight w ([] : List α) = 0 := rfl
      omega
    | cons a' xs' =>
      obtain ⟨rfl, htail⟩ := List.cons.inj h
      rw [weight_cons, weight_cons] at hlen
      obtain ⟨rfl, hy⟩ := ih (by omega) htail
      exact ⟨rfl, hy⟩

/-! ## Decimals -/

theorem isDigit_of_mem_repr {n : ℕ} {c : Char} (h : c ∈ n.repr.toList) : c.isDigit = true := by
  rw [Nat.toList_repr] at h
  exact Nat.isDigit_of_mem_toDigits (by decide) (by decide) h

theorem notMem_repr {c : Char} (hc : c.isDigit = false) (n : ℕ) : c ∉ n.repr.toList := by
  intro h
  rw [isDigit_of_mem_repr h] at hc
  cases hc

/-- An integer has digits and a minus sign. -/
theorem digit_or_minus {n : Int} {c : Char} (h : c ∈ n.repr.toList) : c.isDigit = true ∨ c = '-' := by
  cases n with
  | ofNat m => exact .inl (isDigit_of_mem_repr h)
  | negSucc m =>
    rw [Int.repr, String.toList_append, List.mem_append] at h
    rcases h with hminus | hm
    · exact .inr (by simpa using hminus)
    · exact .inl (isDigit_of_mem_repr hm)

/-- Cutting a decimal off at a separator that is no digit. -/
theorem cut_decimal {c : Char} (hc : c.isDigit = false) {m n : ℕ} {ys ys' : List Char}
    (h : m.repr.toList ++ c :: ys = n.repr.toList ++ c :: ys') : m = n ∧ ys = ys' := by
  obtain ⟨hmn, hy⟩ := cut_separator (notMem_repr hc m) (notMem_repr hc n) h
  exact ⟨Nat.repr_injective (String.toList_inj.mp hmn), hy⟩

/-! ## Digits in order -/

/-- A smaller start stays smaller. -/
theorem ofDigitChars_lt_of_lt {xs ys : List Char} (hlength : xs.length = ys.length)
    (hx : ∀ c ∈ xs, c.isDigit = true) {a b : ℕ} (hab : a < b) :
    Nat.ofDigitChars 10 xs a < Nat.ofDigitChars 10 ys b := by
  induction xs generalizing ys a b with
  | nil =>
    obtain rfl := List.eq_nil_of_length_eq_zero hlength.symm
    simpa using hab
  | cons c xs ih =>
    cases ys with
    | nil => cases hlength
    | cons d ys =>
      have hc := Char.isDigit_iff_toNat.mp (hx c List.mem_cons_self)
      have hnine : '9'.toNat = '0'.toNat + 9 := rfl
      rw [Nat.ofDigitChars_cons, Nat.ofDigitChars_cons]
      exact ih (Nat.succ.inj hlength) (fun e he => hx e (List.mem_cons_of_mem _ he)) (by omega)

/-- Digit strings of one length are ordered as their numbers are. -/
theorem ofDigitChars_lt_of_lex {xs ys : List Char} (hlength : xs.length = ys.length)
    (hx : ∀ c ∈ xs, c.isDigit = true) (h : xs < ys) (a : ℕ) :
    Nat.ofDigitChars 10 xs a < Nat.ofDigitChars 10 ys a := by
  induction xs generalizing ys a with
  | nil =>
    obtain rfl := List.eq_nil_of_length_eq_zero hlength.symm
    exact absurd h (List.not_lt_nil [])
  | cons c xs ih =>
    cases ys with
    | nil => cases hlength
    | cons d ys =>
      have hrest : ∀ e ∈ xs, e.isDigit = true := fun e he => hx e (List.mem_cons_of_mem _ he)
      rw [Nat.ofDigitChars_cons, Nat.ofDigitChars_cons]
      rcases List.cons_lt_cons_iff.mp h with hlt | ⟨rfl, hlt⟩
      · have hc := Char.isDigit_iff_toNat.mp (hx c List.mem_cons_self)
        have hcd : c.toNat < d.toNat := hlt
        exact ofDigitChars_lt_of_lt (Nat.succ.inj hlength) hrest (by omega)
      · exact ih (Nat.succ.inj hlength) hrest hlt _

/-- The first difference decides, whatever follows. -/
theorem append_lt_append {xs ys : List Char} (hlength : xs.length = ys.length) (h : xs < ys)
    (us vs : List Char) : xs ++ us < ys ++ vs := by
  induction xs generalizing ys with
  | nil =>
    obtain rfl := List.eq_nil_of_length_eq_zero hlength.symm
    exact absurd h (List.not_lt_nil [])
  | cons c xs ih =>
    cases ys with
    | nil => cases hlength
    | cons d ys =>
      rw [List.cons_append, List.cons_append, List.cons_lt_cons_iff]
      rcases List.cons_lt_cons_iff.mp h with hlt | ⟨rfl, hlt⟩
      · exact .inl hlt
      · exact .inr ⟨rfl, ih (Nat.succ.inj hlength) hlt⟩

end Codes
