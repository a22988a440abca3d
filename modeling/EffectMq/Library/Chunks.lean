import Mathlib.Data.List.Basic

/-! # Chunks

A list cut into pieces of bounded length, as a loop over `slice(start, start + n)` does.
-/

set_option autoImplicit false
set_option maxHeartbeats 250000

namespace List

variable {α : Type}

/-- Pieces of length `n`, the last one shorter; `n` is positive. -/
def chunks (n : Nat) (xs : List α) : List (List α) := (toChunksAux (n - 1) xs 0).2

theorem toChunksAux_eq (n : Nat) (xs : List α) (i : Nat) :
    toChunksAux n xs i = (xs.take i, chunks (n + 1) (xs.drop i)) := by
  induction xs generalizing i with
  | nil => simp [toChunksAux, chunks]
  | cons x xs ih =>
    cases i with
    | zero => rfl
    | succ i => simp [toChunksAux, ih]

@[simp] theorem chunks_nil (n : Nat) : chunks n ([] : List α) = [] := rfl

theorem chunks_cons (n : Nat) (x : α) (xs : List α) :
    chunks (n + 1) (x :: xs) = (x :: xs.take n) :: chunks (n + 1) (xs.drop n) := by
  rw [chunks, Nat.add_sub_cancel, toChunksAux, toChunksAux_eq]

/-- The chunks of a list, one after the other, by strong induction on its length. -/
theorem chunks_induct {n : Nat} {P : List α → List (List α) → Prop} (hnil : P [] [])
    (hcons : ∀ x xs, P (xs.drop n) (chunks (n + 1) (xs.drop n)) →
      P (x :: xs) ((x :: xs.take n) :: chunks (n + 1) (xs.drop n))) (xs : List α) :
    P xs (chunks (n + 1) xs) := by
  induction h : xs.length using Nat.strongRecOn generalizing xs with
  | ind k ih =>
    cases xs with
    | nil => exact hnil
    | cons x xs =>
      have hshort : (xs.drop n).length < k := by
        rw [← h, length_drop, length_cons]
        omega
      rw [chunks_cons]
      exact hcons x xs (ih _ hshort _ rfl)

theorem chunks_flatten (n : Nat) (xs : List α) : (chunks (n + 1) xs).flatten = xs := by
  refine chunks_induct (P := fun xs pieces => pieces.flatten = xs) rfl (fun x xs h => ?_) xs
  rw [flatten_cons, h, cons_append, take_append_drop]

/-- A list that fits is one chunk. -/
theorem chunks_of_length_le {n : Nat} {xs : List α} (hne : xs ≠ []) (h : xs.length ≤ n + 1) :
    chunks (n + 1) xs = [xs] := by
  cases xs with
  | nil => exact absurd rfl hne
  | cons x xs =>
    rw [length_cons] at h
    rw [chunks_cons, take_of_length_le (by omega), drop_of_length_le (by omega), chunks_nil]

end List
