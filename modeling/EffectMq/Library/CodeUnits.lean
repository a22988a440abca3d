import Mathlib.Data.List.Lex

/-! # Strings as UTF-16 code units

JavaScript compares strings by their code units, which is not the order of code points: a character
outside the basic plane starts with a surrogate, below U+E000. A string can be read back from its
code units, so the order is total.
-/

namespace CodeUnits
set_option autoImplicit false
set_option maxHeartbeats 250000

/-- One unit, or a surrogate pair. -/
def ofChar (c : Char) : List ℕ :=
  if c.toNat < 0x10000 then [c.toNat]
  else [0xD800 + (c.toNat - 0x10000) / 0x400, 0xDC00 + (c.toNat - 0x10000) % 0x400]

def units (s : String) : List ℕ := s.toList.flatMap ofChar

theorem ofChar_cancel {c c' : Char} {xs ys : List ℕ} (h : ofChar c ++ xs = ofChar c' ++ ys) :
    c = c' ∧ xs = ys := by
  have hc : c.toNat < 0xD800 ∨ 0xDFFF < c.toNat ∧ c.toNat < 0x110000 := c.valid
  have hc' : c'.toNat < 0xD800 ∨ 0xDFFF < c'.toNat ∧ c'.toNat < 0x110000 := c'.valid
  unfold ofChar at h
  -- a single unit is never a surrogate, so equal heads come from characters of one kind
  split at h <;> split at h <;>
    simp only [List.cons_append, List.nil_append, List.cons.injEq] at h
  · exact ⟨Char.toNat_inj.mp h.1, h.2⟩
  · omega
  · omega
  · obtain ⟨hhigh, hlow, htail⟩ := h
    refine ⟨Char.toNat_inj.mp ?_, htail⟩
    omega

theorem ofChar_ne_nil (c : Char) : ofChar c ≠ [] := by
  unfold ofChar
  split <;> simp

theorem flatMap_ofChar_injective {xs ys : List Char}
    (h : xs.flatMap ofChar = ys.flatMap ofChar) : xs = ys := by
  induction xs generalizing ys with
  | nil =>
    cases ys with
    | nil => rfl
    | cons c ys => exact absurd (List.append_eq_nil_iff.mp h.symm).1 (ofChar_ne_nil c)
  | cons c xs ih =>
    cases ys with
    | nil => exact absurd (List.append_eq_nil_iff.mp h).1 (ofChar_ne_nil c)
    | cons c' ys =>
      obtain ⟨rfl, htail⟩ := ofChar_cancel h
      rw [ih htail]

theorem units_injective {a b : String} (h : units a = units b) : a = b :=
  String.toList_inj.mp (flatMap_ofChar_injective h)

/-- Every character is one unit. -/
def Basic (s : String) : Prop := ∀ c ∈ s.toList, c.toNat < 0x10000

instance (s : String) : Decidable (Basic s) :=
  List.decidableBAll (fun c : Char => c.toNat < 0x10000) s.toList

theorem flatMap_ofChar_lt {xs ys : List Char} (hx : ∀ c ∈ xs, c.toNat < 0x10000)
    (hy : ∀ c ∈ ys, c.toNat < 0x10000) : xs.flatMap ofChar < ys.flatMap ofChar ↔ xs < ys := by
  have hunit : ∀ {c : Char}, c.toNat < 0x10000 → ofChar c = [c.toNat] := fun h => if_pos h
  induction xs generalizing ys with
  | nil =>
    cases ys with
    | nil => simp
    | cons c ys => simp [hunit (hy c List.mem_cons_self)]
  | cons c xs ih =>
    cases ys with
    | nil => simp
    | cons c' ys =>
      obtain ⟨hc, hxs⟩ := List.forall_mem_cons.mp hx
      obtain ⟨hc', hys⟩ := List.forall_mem_cons.mp hy
      have hhead : c.toNat < c'.toNat ↔ c < c' := Iff.rfl
      have htail : xs.flatMap ofChar < ys.flatMap ofChar ↔ xs < ys := ih hxs hys
      rw [List.flatMap_cons, List.flatMap_cons, hunit hc, hunit hc', List.singleton_append,
        List.singleton_append, List.cons_lt_cons_iff, List.cons_lt_cons_iff, htail, hhead, Char.toNat_inj]

/-- Within the basic plane both orders are one. -/
theorem units_lt {a b : String} (ha : Basic a) (hb : Basic b) : units a < units b ↔ a < b := by
  rw [String.lt_iff]
  exact flatMap_ofChar_lt ha hb

end CodeUnits
