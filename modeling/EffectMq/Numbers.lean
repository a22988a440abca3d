import Mathlib.Algebra.Order.Field.Rat
import Mathlib.Data.List.DropRight
import EffectMq.Library.Json
import EffectMq.JobStore

/-! # JavaScript numbers and their texts

The operators of `number` that a comparator needs, and the conversion `Number(text)`. Finite values are
exact.
-/

namespace EffectMq.JsNumber
set_option autoImplicit false
set_option maxHeartbeats 250000

/-! ## Operators -/

def sub : JsNumber → JsNumber → JsNumber
  | .finite a, .finite b => .finite (a - b)
  | .nan, _ | _, .nan | .posInf, .posInf | .negInf, .negInf => .nan
  | .posInf, _ | _, .negInf => .posInf
  | .negInf, _ | _, .posInf => .negInf

def neg : JsNumber → JsNumber
  | .finite a => .finite (-a)
  | .posInf => .negInf
  | .negInf => .posInf
  | .nan => .nan

/-- The operator `===`. -/
def strictEq (a b : JsNumber) : Bool := decide (a = b) && decide (a ≠ .nan)

/-- A whole number, or `Infinity`. -/
def ofTime : WithTop ℤ → JsNumber
  | none => .posInf
  | some t => .finite t

@[simp] theorem ofTime_coe (t : ℤ) : ofTime t = .finite t := rfl

@[simp] theorem sub_finite (a b : ℚ) : sub (.finite a) (.finite b) = .finite (a - b) := rfl

@[simp] theorem lt_finite (a b : ℚ) : JsNumber.lt (.finite a) (.finite b) = decide (a < b) := rfl

@[simp] theorem strictEq_finite (a b : ℚ) : strictEq (.finite a) (.finite b) = decide (a = b) := by
  simp [strictEq]

/-! ## Texts -/

def isWhite (c : Char) : Bool :=
  decide (c.toNat ∈ [9, 10, 11, 12, 13, 32, 160, 5760, 8232, 8233, 8239, 8287, 12288, 65279]) ||
    decide (8192 ≤ c.toNat ∧ c.toNat ≤ 8202)

def trim (cs : List Char) : List Char := (cs.dropWhile isWhite).rdropWhile isWhite

def digits (cs : List Char) : Option ℕ :=
  if cs ≠ [] ∧ cs.all Char.isDigit then (String.ofList cs).toNat? else none

def exponent : List Char → Option ℤ
  | '+' :: cs => (digits cs).map fun n : ℕ => (n : ℤ)
  | '-' :: cs => (digits cs).map fun n : ℕ => -(n : ℤ)
  | cs => (digits cs).map fun n : ℕ => (n : ℤ)

/-- Digits around an optional point; one side of the point may be empty. -/
def mantissa (cs : List Char) : Option ℚ :=
  let whole := cs.takeWhile fun c => decide (c ≠ '.')
  match cs.dropWhile fun c => decide (c ≠ '.') with
  | [] | [_] => (digits whole).map fun n : ℕ => (n : ℚ)
  | _ :: part => do
    let n ← if whole = [] then some 0 else digits whole
    let m ← digits part
    some (n + m / 10 ^ part.length)

def isExponent (c : Char) : Bool := c = 'e' || c = 'E'

def decimal (cs : List Char) : Option ℚ := do
  let q ← mantissa (cs.takeWhile fun c => !isExponent c)
  let e ← match cs.dropWhile fun c => !isExponent c with
    | [] => some 0
    | _ :: power => exponent power
  some (q * 10 ^ e)

def unsigned (cs : List Char) : Option JsNumber :=
  if cs = "Infinity".toList then some .posInf else (decimal cs).map .finite

def radix : Char → Option ℕ
  | 'x' | 'X' => some 16
  | 'o' | 'O' => some 8
  | 'b' | 'B' => some 2
  | _ => none

def digitsIn (base : ℕ) (cs : List Char) : Option ℕ :=
  if cs = [] then none
  else
    cs.foldlM (fun n c => do
      let d ← Json.hexValue c
      if d < base then some (n * base + d) else none) 0

/-- A literal without a sign, after `0x`, `0o` or `0b` in another base. -/
def literal (cs : List Char) : Option JsNumber :=
  match cs with
  | '0' :: c :: rest =>
    match radix c with
    | some base => (digitsIn base rest).map fun n : ℕ => .finite n
    | none => unsigned cs
  | _ => unsigned cs

/-- `Number(text)`. -/
def ofText (text : String) : JsNumber :=
  match trim text.toList with
  | [] => 0
  | '-' :: cs => ((unsigned cs).map neg).getD .nan
  | '+' :: cs => (unsigned cs).getD .nan
  | cs => (literal cs).getD .nan

theorem trim_eq {cs : List Char} (h : ∀ c ∈ cs, isWhite c = false) : trim cs = cs := by
  have hleft : cs.dropWhile isWhite = cs := by
    rw [List.dropWhile_eq_self_iff]
    intro hpos hwhite
    rw [h _ (List.getElem_mem hpos)] at hwhite
    cases hwhite
  rw [trim, hleft, List.rdropWhile_eq_self_iff]
  intro hne hwhite
  rw [h _ (List.getLast_mem hne)] at hwhite
  cases hwhite

theorem decimal_digits {cs : List Char} {n : ℕ} (hall : ∀ c ∈ cs, c.isDigit = true)
    (hread : digits cs = some n) : decimal cs = some (n : ℚ) := by
  have hpoint : ∀ c ∈ cs, decide (c ≠ '.') = true := fun c hc => by
    rw [decide_eq_true_eq]
    rintro rfl
    exact absurd (hall _ hc) (by decide)
  have hexponent : ∀ c ∈ cs, (!isExponent c) = true := fun c hc => by
    by_contra h
    simp only [isExponent, Bool.not_eq_true, Bool.not_eq_false', Bool.or_eq_true,
      decide_eq_true_eq] at h
    rcases h with rfl | rfl <;> exact absurd (hall _ hc) (by decide)
  have hmantissa : mantissa cs = some (n : ℚ) := by
    simp only [mantissa, List.takeWhile_eq_self_iff.mpr hpoint, List.dropWhile_eq_nil_iff.mpr hpoint,
      hread, Option.map_some]
  unfold decimal
  rw [List.takeWhile_eq_self_iff.mpr hexponent, List.dropWhile_eq_nil_iff.mpr hexponent, hmantissa]
  simp

theorem isWhite_of_isDigit {c : Char} (h : c.isDigit = true) : isWhite c = false := by
  have hrange : 48 ≤ c.toNat ∧ c.toNat ≤ 57 := by
    simpa [Char.isDigit, UInt32.le_iff_toNat_le] using h
  simp only [isWhite, List.mem_cons, List.not_mem_nil, or_false, Bool.or_eq_false_iff,
    decide_eq_false_iff_not]
  omega

theorem digits_repr (n : ℕ) : digits n.repr.toList = some n := by
  have hne : n.repr.toList ≠ [] := Json.repr_ne_nil (n : ℤ)
  have hall : n.repr.toList.all Char.isDigit = true :=
    List.all_eq_true.mpr fun _ hc => Codes.isDigit_of_mem_repr hc
  rw [digits, if_pos ⟨hne, hall⟩, String.ofList_toList, Nat.toNat?_repr]

theorem unsigned_repr (n : ℕ) : unsigned n.repr.toList = some (.finite n) := by
  have hall : ∀ c ∈ n.repr.toList, c.isDigit = true := fun c hc => Codes.isDigit_of_mem_repr hc
  have hne : n.repr.toList ≠ "Infinity".toList := by
    intro h
    have hdigit := hall 'I' (by rw [h]; decide)
    exact absurd hdigit (by decide)
  rw [unsigned, if_neg hne, decimal_digits hall (digits_repr n)]
  rfl

theorem literal_digits {cs : List Char} (hall : ∀ c ∈ cs, c.isDigit = true) :
    literal cs = unsigned cs := by
  unfold literal
  split
  next c rest =>
    have hdigit := hall c (by simp)
    have hradix : radix c = none := by
      unfold radix
      split <;> first | rfl | exact absurd hdigit (by decide)
    rw [hradix]
  next => rfl

/-- The decimal text of a whole number reads as it. -/
theorem ofText_repr (n : ℤ) : ofText n.repr = .finite n := by
  cases n with
  | ofNat m =>
    have hall : ∀ c ∈ m.repr.toList, c.isDigit = true := fun c hc => Codes.isDigit_of_mem_repr hc
    have hread : (literal m.repr.toList).getD .nan = .finite m := by
      rw [literal_digits hall, unsigned_repr]
      rfl
    have htrim := trim_eq fun c hc => isWhite_of_isDigit (hall c hc)
    rw [ofText, show Int.repr (Int.ofNat m) = m.repr from rfl, htrim]
    split
    next hnil => exact absurd hnil (Json.repr_ne_nil (m : ℤ))
    next heq => exact absurd (hall '-' (by rw [heq]; simp)) (by decide)
    next heq => exact absurd (hall '+' (by rw [heq]; simp)) (by decide)
    next => exact hread
  | negSucc m =>
    have hall : ∀ c ∈ (m + 1).repr.toList, c.isDigit = true := fun c hc =>
      Codes.isDigit_of_mem_repr hc
    have htext : (Int.repr (Int.negSucc m)).toList = '-' :: (m + 1).repr.toList := by
      simp [Int.repr]
    have htrim : trim ('-' :: (m + 1).repr.toList) = '-' :: (m + 1).repr.toList := by
      refine trim_eq fun c hc => ?_
      rcases List.mem_cons.mp hc with rfl | hc
      · decide
      · exact isWhite_of_isDigit (hall c hc)
    rw [ofText, htext, htrim]
    simp only [unsigned_repr, Option.map_some, neg, Option.getD_some, finite.injEq]
    rw [Int.cast_negSucc]

end EffectMq.JsNumber
