import Mathlib.Data.List.Sort

/-! # Ranks

The rank of an entry under a strict order is how many entries come before it. In a list sorted by the
order it is the entry's position, so a slice of the sorted list is a bound on ranks (`mem_drop_iff`),
and a rank asks nothing about the order in which the entries are listed (`rankIn_perm`) nor about
entries that do not come before it (`rankIn_filter`).
-/

set_option autoImplicit false
set_option maxHeartbeats 250000

variable {α β : Type}

/-- How many entries come before `x`. -/
def rankIn (before : α → α → Prop) [DecidableRel before] (xs : List α) (x : α) : ℕ :=
  xs.countP fun y => decide (before y x)

section Rank

variable {before : α → α → Prop} [DecidableRel before]

@[simp] theorem rankIn_nil (x : α) : rankIn before [] x = 0 := rfl

theorem rankIn_cons (y : α) (ys : List α) (x : α) :
    rankIn before (y :: ys) x = rankIn before ys x + if before y x then 1 else 0 := by
  rw [rankIn, List.countP_cons]
  simp [rankIn]

theorem rankIn_perm {xs ys : List α} (h : xs.Perm ys) (x : α) :
    rankIn before xs x = rankIn before ys x :=
  h.countP_eq _

theorem rankIn_map {before' : β → β → Prop} [DecidableRel before'] (f : α → β)
    (h : ∀ a b, before' (f a) (f b) ↔ before a b) (xs : List α) (x : α) :
    rankIn before' (xs.map f) (f x) = rankIn before xs x := by
  rw [rankIn, rankIn, List.countP_map]
  apply List.countP_congr
  intro y _
  simp [h]

/-- Dropping entries that do not come before `x` leaves its rank. -/
theorem rankIn_filter {xs : List α} {p : α → Bool} {x : α}
    (h : ∀ y ∈ xs, before y x → p y = true) : rankIn before (xs.filter p) x = rankIn before xs x := by
  rw [rankIn, rankIn, List.countP_filter]
  apply List.countP_congr
  intro y hy
  simp only [Bool.and_eq_true, decide_eq_true_eq, and_iff_left_iff_imp]
  exact h y hy

theorem rankIn_eq_zero {xs : List α} {x : α} (h : ∀ y ∈ xs, ¬before y x) : rankIn before xs x = 0 := by
  rw [rankIn, List.countP_eq_zero]
  intro y hy
  simpa using h y hy

/-- Ranks grow along the order. -/
theorem rankIn_lt {xs : List α} (htrans : ∀ a b c, before a b → before b c → before a c)
    (hirrefl : ∀ a, ¬before a a) {x y : α} (hx : x ∈ xs) (h : before x y) :
    rankIn before xs x < rankIn before xs y := by
  have hmono : ∀ ys : List α, rankIn before ys x ≤ rankIn before ys y := fun ys =>
    List.countP_mono_left fun z _ hz => by
      simp only [decide_eq_true_eq] at hz ⊢
      exact htrans z x y hz h
  induction xs with
  | nil => simp at hx
  | cons z zs ih =>
    rw [rankIn_cons, rankIn_cons]
    rcases List.mem_cons.mp hx with rfl | hx
    · rw [if_neg (hirrefl x), if_pos h]
      have hle := hmono zs
      omega
    · have hlt := ih hx
      by_cases hz : before z x
      · rw [if_pos hz, if_pos (htrans z x y hz h)]
        omega
      · rw [if_neg hz]
        omega

/-- Past the first `n` entries lie those of rank at least `n`. -/
theorem mem_drop_iff {xs : List α} (hsorted : xs.Pairwise before)
    (hasymm : ∀ a b, before a b → ¬before b a) {x : α} (hx : x ∈ xs) (n : ℕ) :
    x ∈ xs.drop n ↔ n ≤ rankIn before xs x := by
  have hirrefl : ∀ a, ¬before a a := fun a h => hasymm a a h h
  induction xs generalizing n with
  | nil => simp at hx
  | cons y ys ih =>
    rw [List.pairwise_cons] at hsorted
    cases n with
    | zero => simpa using hx
    | succ n =>
      rw [List.drop_succ_cons, rankIn_cons]
      rcases List.mem_cons.mp hx with rfl | hx
      · have hzero : rankIn before ys x = 0 :=
          rankIn_eq_zero fun z hz h => hasymm x z (hsorted.1 z hz) h
        have hnot : x ∉ ys.drop n := fun h => hirrefl x (hsorted.1 x (List.mem_of_mem_drop h))
        rw [hzero, if_neg (hirrefl x)]
        simp [hnot]
      · have hrest : x ∈ ys.drop n ↔ n ≤ rankIn before ys x := ih hsorted.2 hx n
        rw [hrest, if_pos (hsorted.1 x hx)]
        omega

theorem mem_take_iff {xs : List α} (hsorted : xs.Pairwise before)
    (hasymm : ∀ a b, before a b → ¬before b a) {x : α} (hx : x ∈ xs) (n : ℕ) :
    x ∈ xs.take n ↔ rankIn before xs x < n := by
  have hnodup : xs.Nodup := hsorted.imp fun h heq => by
    subst heq
    exact hasymm _ _ h h
  have hsplit : x ∈ xs.take n ∨ x ∈ xs.drop n := by
    rw [← List.mem_append, List.take_append_drop]
    exact hx
  have hdisjoint : x ∈ xs.take n → x ∉ xs.drop n := fun htake hdrop =>
    List.disjoint_take_drop hnodup le_rfl htake hdrop
  rw [← not_le, ← mem_drop_iff hsorted hasymm hx]
  constructor
  · exact hdisjoint
  · intro h
    exact hsplit.resolve_right h

end Rank

/-- Sorting by a total preorder sorts strictly when no two entries tie. -/
theorem pairwise_insertionSort_of_ne {le before : α → α → Prop} [DecidableRel le]
    [Std.Total le] [IsTrans α le] {xs : List α} (hnodup : xs.Nodup)
    (h : ∀ a ∈ xs, ∀ b ∈ xs, a ≠ b → le a b → before a b) :
    (xs.insertionSort le).Pairwise before := by
  have hmem : ∀ {a}, a ∈ xs.insertionSort le → a ∈ xs := (List.mem_insertionSort le).mp
  have hne : (xs.insertionSort le).Pairwise (· ≠ ·) :=
    (List.perm_insertionSort le xs).nodup_iff.mpr hnodup
  have hle := List.pairwise_insertionSort le xs
  exact (hne.and hle).imp_of_mem fun ha hb hab => h _ (hmem ha) _ (hmem hb) hab.1 hab.2

/-! ## Descending by two keys -/

section Descending

variable {J K L : Type} [LinearOrder K] [LinearOrder L]

theorem descending_total (key : J → K) (tie : J → L) :
    Std.Total fun a b => key b < key a ∨ key b = key a ∧ tie b ≤ tie a where
  total a b := by
    rcases lt_trichotomy (key a) (key b) with h | h | h
    · exact .inr (.inl h)
    · exact (le_total (tie b) (tie a)).imp (fun ht => .inr ⟨h.symm, ht⟩) fun ht => .inr ⟨h, ht⟩
    · exact .inl (.inl h)

theorem descending_trans (key : J → K) (tie : J → L) :
    IsTrans J fun a b => key b < key a ∨ key b = key a ∧ tie b ≤ tie a where
  trans a b c hab hbc := by
    rcases hab with hab | ⟨hab, htie⟩
    · rcases hbc with hbc | ⟨hbc, _⟩
      · exact .inl (hbc.trans hab)
      · exact .inl (hbc ▸ hab)
    · rcases hbc with hbc | ⟨hbc, htie'⟩
      · exact .inl (hab ▸ hbc)
      · exact .inr ⟨hbc.trans hab, htie'.trans htie⟩

end Descending
