import Mathlib.Data.List.Basic

/-! # Scatter

A row of slots that values are written into by position, in any order.
-/

namespace List
set_option autoImplicit false
set_option maxHeartbeats 250000

variable {α : Type}

def scatter (slots : List (Option α)) (writes : List (ℕ × α)) : List (Option α) :=
  writes.foldl (fun slots write => slots.set write.1 (some write.2)) slots

@[simp] theorem scatter_nil (slots : List (Option α)) : scatter slots [] = slots := rfl

@[simp] theorem scatter_cons (slots : List (Option α)) (write : ℕ × α) (writes : List (ℕ × α)) :
    scatter slots (write :: writes) = scatter (slots.set write.1 (some write.2)) writes := rfl

theorem scatter_append (slots : List (Option α)) (writes writes' : List (ℕ × α)) :
    scatter slots (writes ++ writes') = scatter (scatter slots writes) writes' :=
  foldl_append

@[simp] theorem length_scatter (slots : List (Option α)) (writes : List (ℕ × α)) :
    (scatter slots writes).length = slots.length := by
  induction writes generalizing slots with
  | nil => rfl
  | cons write writes ih => rw [scatter_cons, ih, length_set]

/-- A slot no write names keeps what it holds. -/
theorem scatter_getElem?_of_notMem {slots : List (Option α)} {writes : List (ℕ × α)} {i : ℕ}
    (h : i ∉ writes.map Prod.fst) : (scatter slots writes)[i]? = slots[i]? := by
  induction writes generalizing slots with
  | nil => rfl
  | cons write writes ih =>
    rw [map_cons, mem_cons, not_or] at h
    rw [scatter_cons, ih h.2, getElem?_set_ne (Ne.symm h.1)]

/-- Where the writes agree about a slot, one of them is enough to know it. -/
theorem scatter_getElem?_of_mem {slots : List (Option α)} {writes : List (ℕ × α)} {i : ℕ} {a : α}
    (hi : i < slots.length) (hmem : (i, a) ∈ writes)
    (hagree : ∀ write ∈ writes, write.1 = i → write.2 = a) :
    (scatter slots writes)[i]? = some (some a) := by
  induction writes generalizing slots with
  | nil => exact absurd hmem not_mem_nil
  | cons write writes ih =>
    rw [scatter_cons]
    by_cases hlater : i ∈ writes.map Prod.fst
    · obtain ⟨later, hin, rfl⟩ := mem_map.mp hlater
      have hvalue : later.2 = a := hagree later (mem_cons_of_mem _ hin) rfl
      refine ih (by rwa [length_set]) (hvalue ▸ hin) fun write hwrite => ?_
      exact hagree write (mem_cons_of_mem _ hwrite)
    · have hwrite : (i, a) = write := by
        refine (mem_cons.mp hmem).resolve_right fun hmem => hlater ?_
        exact mem_map_of_mem (f := Prod.fst) hmem
      rw [scatter_getElem?_of_notMem hlater, ← hwrite, getElem?_set_self hi]

/-- Every value is written to its own slot, in whatever order. -/
theorem scatter_perm {values : List α} {writes : List (ℕ × α)}
    (h : writes.Perm ((range values.length).zip values)) :
    scatter (replicate values.length none) writes = values.map some := by
  have hmem : ∀ i a, (i, a) ∈ writes ↔ values[i]? = some a := by
    intro i a
    rw [h.mem_iff, mem_iff_getElem?]
    constructor
    · rintro ⟨n, hn⟩
      obtain ⟨hrange, hvalue⟩ := getElem?_zip_eq_some.mp hn
      obtain ⟨hn, hin⟩ := getElem?_eq_some_iff.mp hrange
      rw [getElem_range] at hin
      change n = i at hin
      rwa [← hin]
    · intro hvalue
      have hi : i < values.length := (getElem?_eq_some_iff.mp hvalue).1
      exact ⟨i, getElem?_zip_eq_some.mpr ⟨getElem?_range hi, hvalue⟩⟩
  refine ext_getElem? fun i => ?_
  by_cases hi : i < values.length
  · rw [getElem?_map, getElem?_eq_getElem hi, Option.map_some]
    refine scatter_getElem?_of_mem (by rwa [length_replicate])
      ((hmem i _).mpr (getElem?_eq_getElem hi)) fun write hwrite hwi => ?_
    have hvalue := (hmem write.1 write.2).mp hwrite
    rw [hwi, getElem?_eq_getElem hi] at hvalue
    exact (Option.some.inj hvalue).symm
  · rw [getElem?_eq_none (by rw [length_scatter, length_replicate]; omega),
      getElem?_eq_none (by rw [length_map]; omega)]

/-- A row of which every slot is filled. -/
theorem mapM_id_map_some (values : List α) : (values.map some).mapM id = some values := by
  induction values with
  | nil => rfl
  | cons a values ih => rw [map_cons, mapM_cons, ih]; rfl

end List
