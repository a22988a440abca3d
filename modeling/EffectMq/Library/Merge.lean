import Mathlib.Data.List.Basic
import Mathlib.Data.List.Perm.Basic

/-! # Merging sorted lists by their heads

`xs` is the merge of some sorted parts when it is sorted and has exactly their elements. Whoever takes
the least head again and again takes the elements of the merge in order.
-/

namespace Merge
set_option autoImplicit false
set_option maxHeartbeats 250000

variable {α : Type} {r : α → α → Prop}

structure Merges (r : α → α → Prop) (parts : List (List α)) (xs : List α) : Prop where
  sorted : xs.Pairwise r
  perm : xs.Perm parts.flatten

theorem Merges.nil_of {parts : List (List α)} {xs : List α} (h : Merges r parts xs)
    (hempty : ∀ part ∈ parts, part = []) : xs = [] := by
  have hflat : parts.flatten = [] := List.flatten_eq_nil_iff.mpr hempty
  have hperm := h.perm
  rw [hflat] at hperm
  exact hperm.eq_nil

theorem perm_flatten_set {parts : List (List α)} {i : ℕ} {a : α} {part : List α}
    (h : parts[i]? = some (a :: part)) : parts.flatten.Perm (a :: (parts.set i part).flatten) := by
  induction parts generalizing i with
  | nil => simp at h
  | cons first parts ih =>
    cases i with
    | zero =>
      obtain rfl : first = a :: part := by simpa using h
      exact List.Perm.refl _
    | succ i =>
      rw [List.flatten_cons, List.set_cons_succ, List.flatten_cons]
      exact ((ih (by simpa using h)).append_left first).trans List.perm_middle

/-- A least head is the first element of the merge. -/
theorem Merges.pop {parts : List (List α)} {xs : List α} (h : Merges r parts xs)
    (htrans : ∀ a b c, r a b → r b c → r a c) (hparts : ∀ part ∈ parts, part.Pairwise r)
    {i : ℕ} {a : α} {part : List α} (hi : parts[i]? = some (a :: part))
    (hleast : ∀ part' ∈ parts, ∀ b ∈ part'.head?, ¬ r b a) :
    ∃ rest, xs = a :: rest ∧ Merges r (parts.set i part) rest := by
  have hperm := perm_flatten_set hi
  have ha : a ∈ xs := h.perm.mem_iff.mpr (hperm.mem_iff.mpr List.mem_cons_self)
  obtain ⟨x, rest, rfl⟩ := List.exists_cons_of_ne_nil (List.ne_nil_of_mem ha)
  have hsorted := List.pairwise_cons.mp h.sorted
  have hfirst : ¬ r x a := by
    intro hxa
    obtain ⟨part', hpart', hx⟩ := List.mem_flatten.mp (h.perm.mem_iff.mp List.mem_cons_self)
    obtain ⟨b, tail, rfl⟩ := List.exists_cons_of_ne_nil (List.ne_nil_of_mem hx)
    have hhead := hleast _ hpart' b rfl
    rcases List.mem_cons.mp hx with rfl | hx
    · exact hhead hxa
    · exact hhead (htrans b x a ((List.pairwise_cons.mp (hparts _ hpart')).1 x hx) hxa)
  obtain rfl : x = a := by
    rcases List.mem_cons.mp ha with rfl | hmem
    · rfl
    · exact absurd (hsorted.1 a hmem) hfirst
  exact ⟨rest, rfl, hsorted.2, (h.perm.trans hperm).cons_inv⟩

end Merge
