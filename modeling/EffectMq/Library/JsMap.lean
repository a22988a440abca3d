import Mathlib.Data.List.Nodup
import Mathlib.Data.List.Basic

/-! # Insertion-ordered maps

The `Map` of JavaScript as a list of entries in first-insertion order with pairwise distinct keys:
`set` keeps the position of a key that is present and appends one that is not, `delete` closes the
gap, and iteration follows the list.

* `get?_eq_some` reads a lookup as membership, and the lookup of every operation is one `simp`
  lemma (`get?_set`, `get?_modify`, `get?_delete`, `get?_mapValues`).
* `countP_values_modify` and `countP_mapValues` say how an update moves a count of values.
-/

set_option autoImplicit false
set_option maxHeartbeats 250000

/-- A JavaScript `Map`: entries in first-insertion order, keys pairwise distinct. -/
structure JsMap (K V : Type) where
  entries : List (K × V)
  nodup : (entries.map Prod.fst).Nodup
  deriving DecidableEq

namespace JsMap

variable {K V W : Type}

/-! ## Operations -/

def empty : JsMap K V := ⟨[], List.nodup_nil⟩

instance : EmptyCollection (JsMap K V) := ⟨empty⟩

def keys (m : JsMap K V) : List K := m.entries.map Prod.fst

def values (m : JsMap K V) : List V := m.entries.map Prod.snd

def size (m : JsMap K V) : ℕ := m.entries.length

def single (k : K) (v : V) : JsMap K V := ⟨[(k, v)], List.nodup_singleton k⟩

@[simp] theorem values_single (k : K) (v : V) : (single k v).values = [v] := rfl

/-- Keep the entries whose value passes. -/
def filter (p : V → Bool) (m : JsMap K V) : JsMap K V where
  entries := m.entries.filter fun e => p e.2
  nodup := m.nodup.sublist (List.filter_sublist.map Prod.fst)

/-- Rewrite every value, keys and order unchanged. -/
def mapValues (f : K → V → W) (m : JsMap K V) : JsMap K W where
  entries := m.entries.map fun e => (e.1, f e.1 e.2)
  nodup := by simpa [List.map_map, Function.comp_def] using m.nodup

@[simp] theorem size_empty : (∅ : JsMap K V).size = 0 := rfl

@[simp] theorem entries_empty : (∅ : JsMap K V).entries = [] := rfl

theorem nodup_keys (m : JsMap K V) : m.keys.Nodup := m.nodup

@[simp] theorem keys_mapValues (f : K → V → W) (m : JsMap K V) : (m.mapValues f).keys = m.keys := by
  simp [keys, mapValues, List.map_map, Function.comp_def]

@[simp] theorem length_values (m : JsMap K V) : m.values.length = m.size := by
  simp [values, size]

theorem values_mapValues (f : V → W) (m : JsMap K V) :
    (m.mapValues fun _ => f).values = m.values.map f := by
  simp [values, mapValues, List.map_map, Function.comp_def]

theorem countP_mapValues (f : V → W) (m : JsMap K V) (p : W → Bool) :
    (m.mapValues fun _ => f).values.countP p = m.values.countP (p ∘ f) := by
  rw [values_mapValues, List.countP_map]

variable [DecidableEq K]

def get? (m : JsMap K V) (k : K) : Option V := m.entries.lookup k

def has (m : JsMap K V) (k : K) : Bool := (m.get? k).isSome

/-- Rewrite the value of one key in place, if the key is present. -/
def modify (m : JsMap K V) (k : K) (f : V → V) : JsMap K V :=
  m.mapValues fun k' v => if k' = k then f v else v

def delete (m : JsMap K V) (k : K) : JsMap K V where
  entries := m.entries.filter fun e => decide (e.1 ≠ k)
  nodup := m.nodup.sublist (List.filter_sublist.map Prod.fst)

theorem get?_eq_none {m : JsMap K V} {k : K} : m.get? k = none ↔ k ∉ m.keys := by
  simp only [get?, keys, List.lookup_eq_none_iff, List.mem_map, not_exists, not_and]
  constructor
  · intro h e he hk
    have hne := h e he
    simp [hk] at hne
  · intro h e he
    have hne := h e he
    simpa using fun hk => hne hk.symm

/-- Append the entry of a key that is not there. -/
def append (m : JsMap K V) (k : K) (v : V) (h : m.get? k = none) : JsMap K V where
  entries := m.entries ++ [(k, v)]
  nodup := by
    have hk : k ∉ m.entries.map Prod.fst := get?_eq_none.mp h
    rw [List.map_append, List.nodup_append]
    refine ⟨m.nodup, by simp, ?_⟩
    rintro a ha b hb rfl
    simp only [List.map_cons, List.map_nil, List.mem_singleton] at hb
    exact hk (hb ▸ ha)

/-- `Map.set`: in place when the key is present, at the end otherwise. -/
def set (m : JsMap K V) (k : K) (v : V) : JsMap K V :=
  if h : m.get? k = none then m.append k v h else m.modify k fun _ => v

/-! ## Lookup -/

/-- In a list with distinct keys, lookup is membership. -/
theorem lookup_eq_some_of_nodup {es : List (K × V)} (h : (es.map Prod.fst).Nodup) {k : K} {v : V} :
    es.lookup k = some v ↔ (k, v) ∈ es := by
  induction es with
  | nil => simp
  | cons e es ih =>
    obtain ⟨k', v'⟩ := e
    simp only [List.map_cons, List.nodup_cons] at h
    rw [List.lookup_cons]
    by_cases hk : k = k'
    · subst hk
      have hnot : (k, v) ∉ es := fun hm => h.1 (List.mem_map.mpr ⟨_, hm, rfl⟩)
      simp [hnot, eq_comm]
    · have hb : (k == k') = false := by simp [hk]
      simp [hb, ih h.2, hk]

theorem get?_eq_some {m : JsMap K V} {k : K} {v : V} :
    m.get? k = some v ↔ (k, v) ∈ m.entries :=
  lookup_eq_some_of_nodup m.nodup

theorem has_eq_true {m : JsMap K V} {k : K} : m.has k = true ↔ ∃ v, m.get? k = some v := by
  rw [has, Option.isSome_iff_exists]

theorem has_eq_false {m : JsMap K V} {k : K} : m.has k = false ↔ m.get? k = none := by
  rw [has, Option.isSome_eq_false_iff, Option.isNone_iff_eq_none]

theorem mem_keys {m : JsMap K V} {k : K} : k ∈ m.keys ↔ ∃ v, m.get? k = some v := by
  simp only [keys, List.mem_map, get?_eq_some, Prod.exists, exists_and_right, exists_eq_right]

theorem mem_values {m : JsMap K V} {v : V} : v ∈ m.values ↔ ∃ k, m.get? k = some v := by
  simp only [values, List.mem_map, get?_eq_some, Prod.exists, exists_eq_right]

/-- Values that know their key are as distinct as the keys. -/
theorem nodup_values_map {m : JsMap K V} {f : V → K} (h : ∀ k v, m.get? k = some v → f v = k) :
    (m.values.map f).Nodup := by
  have hkeys : m.values.map f = m.keys := by
    rw [values, keys, List.map_map]
    apply List.map_congr_left
    intro e he
    exact h e.1 e.2 (get?_eq_some.mpr he)
  rw [hkeys]
  exact m.nodup

@[simp] theorem get?_empty (k : K) : (empty : JsMap K V).get? k = none := rfl

@[simp] theorem get?_emptyCollection (k : K) : (∅ : JsMap K V).get? k = none := rfl

@[simp] theorem get?_single (k k' : K) (v : V) :
    (single k v).get? k' = if k' = k then some v else none := by
  rw [get?, single, List.lookup_cons]
  by_cases h : k' = k
  · simp [h]
  · simp [h, beq_false_of_ne h]

@[simp] theorem get?_mapValues (f : K → V → W) (m : JsMap K V) (k : K) :
    (m.mapValues f).get? k = (m.get? k).map (f k) := by
  obtain ⟨es, hes⟩ := m
  simp only [get?, mapValues]
  clear hes
  induction es with
  | nil => rfl
  | cons e es ih =>
    rw [List.map_cons, List.lookup_cons, List.lookup_cons, ih]
    by_cases hk : k = e.1
    · subst hk
      simp
    · have hb : (k == e.1) = false := by simp [hk]
      simp [hb]

@[simp] theorem get?_modify (m : JsMap K V) (k k' : K) (f : V → V) :
    (m.modify k f).get? k' = if k' = k then (m.get? k).map f else m.get? k' := by
  rw [modify, get?_mapValues]
  by_cases h : k' = k
  · simp [h]
  · simp [h]

@[simp] theorem get?_delete (m : JsMap K V) (k k' : K) :
    (m.delete k).get? k' = if k' = k then none else m.get? k' := by
  by_cases h : k' = k
  · subst h
    rw [if_pos rfl, get?_eq_none]
    simp [keys, delete]
  · rw [if_neg h]
    apply Option.ext
    intro v
    rw [get?_eq_some, get?_eq_some]
    simp [delete, h]

@[simp] theorem get?_filter (p : V → Bool) (m : JsMap K V) (k : K) :
    (m.filter p).get? k = (m.get? k).filter p := by
  apply Option.ext
  intro v
  rw [Option.filter_eq_some_iff, get?_eq_some, get?_eq_some]
  simp [filter]

theorem get?_append (m : JsMap K V) (k k' : K) (v : V) (h : m.get? k = none) :
    (m.append k v h).get? k' = if k' = k then some v else m.get? k' := by
  apply Option.ext
  intro w
  rw [get?_eq_some]
  by_cases hk : k' = k
  · subst hk
    have hw : (k', w) ∉ m.entries := fun hm => by
      rw [← get?_eq_some, h] at hm
      cases hm
    simp [append, hw, eq_comm]
  · simp [append, hk, get?_eq_some]

@[simp] theorem get?_set (m : JsMap K V) (k k' : K) (v : V) :
    (m.set k v).get? k' = if k' = k then some v else m.get? k' := by
  unfold set
  split
  · exact get?_append m k k' v ‹_›
  · rename_i h
    obtain ⟨w, hw⟩ := Option.ne_none_iff_exists'.mp h
    simp [hw]

theorem set_eq_modify {m : JsMap K V} {k : K} {w : V} (h : m.get? k = some w) (v : V) :
    m.set k v = m.modify k fun _ => v := by
  rw [set, dif_neg (by simp [h])]

/-- An update in place: the entries around it stay. -/
theorem entries_modify {m : JsMap K V} {k : K} {v : V} (h : m.get? k = some v) (f : V → V) :
    ∃ before after, m.entries = before ++ (k, v) :: after ∧
      (m.modify k f).entries = before ++ (k, f v) :: after := by
  obtain ⟨before, after, hentries⟩ := List.append_of_mem (get?_eq_some.mp h)
  refine ⟨before, after, hentries, ?_⟩
  have hnd := m.nodup
  rw [hentries, List.map_append, List.map_cons, List.nodup_append] at hnd
  obtain ⟨_, hafter, hdisjoint⟩ := hnd
  have hother : ∀ e ∈ before ++ after, e.1 ≠ k := by
    rintro e he rfl
    rcases List.mem_append.mp he with he | he
    · exact hdisjoint e.1 (List.mem_map_of_mem he) e.1 List.mem_cons_self rfl
    · exact (List.nodup_cons.mp hafter).1 (List.mem_map.mpr ⟨e, he, rfl⟩)
  have hmap : ∀ es : List (K × V), (∀ e ∈ es, e ∈ before ++ after) →
      es.map (fun e => (e.1, if e.1 = k then f e.2 else e.2)) = es := by
    intro es hes
    conv_rhs => rw [← List.map_id es]
    apply List.map_congr_left
    intro e he
    simp [hother e (hes e he)]
  rw [modify, mapValues]
  simp only [hentries, List.map_append, List.map_cons, if_true]
  rw [hmap before fun e he => List.mem_append_left _ he,
    hmap after fun e he => List.mem_append_right _ he]

/-- Adding to the list of a key adds to the lists of all keys. -/
theorem perm_flatMap_set {α : Type} (m : JsMap K (List α)) (k : K) (xs : List α) :
    ((m.set k ((m.get? k).getD [] ++ xs)).entries.flatMap (·.2)).Perm
      (m.entries.flatMap (·.2) ++ xs) := by
  cases hget : m.get? k with
  | none =>
    rw [set, dif_pos hget, append, List.flatMap_append]
    simp
  | some v =>
    rw [set_eq_modify hget]
    obtain ⟨before, after, hentries, hmodify⟩ := entries_modify hget fun _ => v ++ xs
    rw [Option.getD_some, hmodify, hentries]
    simp only [List.flatMap_append, List.flatMap_cons, List.append_assoc]
    exact (List.Perm.append_left _ (List.Perm.append_left _ List.perm_append_comm))

/-! ## Repeated writes -/

theorem ext_entries {K V : Type} {m m' : JsMap K V} (h : m.entries = m'.entries) : m = m' := by
  cases m
  cases m'
  simp_all

theorem mapValues_congr {f g : K → V → W} {m : JsMap K V}
    (h : ∀ k v, m.get? k = some v → f k v = g k v) : m.mapValues f = m.mapValues g := by
  apply ext_entries
  apply List.map_congr_left
  intro e he
  rw [h e.1 e.2 (get?_eq_some.mpr he)]

omit [DecidableEq K] in
theorem mapValues_mapValues {X : Type} (f : K → V → W) (g : K → W → X) (m : JsMap K V) :
    (m.mapValues f).mapValues g = m.mapValues fun k v => g k (f k v) := by
  apply ext_entries
  simp only [mapValues, List.map_map]
  rfl

omit [DecidableEq K] in
theorem mapValues_self (m : JsMap K V) : (m.mapValues fun _ v => v) = m :=
  ext_entries (List.map_id _)

theorem modify_modify (m : JsMap K V) (k : K) (f g : V → V) :
    (m.modify k f).modify k g = m.modify k (g ∘ f) := by
  apply ext_entries
  simp only [modify, mapValues, List.map_map]
  apply List.map_congr_left
  intro e _
  by_cases h : e.1 = k <;> simp [h]

/-- An update that leaves the value there is leaves the map. -/
theorem modify_eq_self {m : JsMap K V} {k : K} {f : V → V} (h : ∀ v, m.get? k = some v → f v = v) :
    m.modify k f = m := by
  apply ext_entries
  simp only [modify, mapValues]
  conv_rhs => rw [← List.map_id m.entries]
  apply List.map_congr_left
  intro e he
  by_cases hk : e.1 = k
  · have hget : m.get? k = some e.2 := get?_eq_some.mpr (hk ▸ he)
    simp [hk.symm, h e.2 hget]
  · simp [hk]

theorem modify_id (m : JsMap K V) (k : K) : m.modify k id = m := modify_eq_self fun _ _ => rfl

theorem set_set (m : JsMap K V) (k : K) (v w : V) : (m.set k v).set k w = m.set k w := by
  have hset : (m.set k v).get? k = some v := by simp
  rw [set_eq_modify hset]
  cases h : m.get? k with
  | some u =>
    rw [set_eq_modify h, set_eq_modify h, modify_modify]
    rfl
  | none =>
    apply ext_entries
    simp only [set, h, dif_pos, append, modify, mapValues, List.map_append, List.map_cons,
      List.map_nil, if_true, List.append_cancel_right_eq]
    conv_rhs => rw [← List.map_id m.entries]
    apply List.map_congr_left
    intro e he
    have hne : e.1 ≠ k := fun hk => get?_eq_none.mp h (List.mem_map.mpr ⟨e, he, hk⟩)
    simp [hne]

theorem mapValues_set (f : V → W) (m : JsMap K V) (k : K) (v : V) :
    ((m.set k v).mapValues fun _ => f) = (m.mapValues fun _ => f).set k (f v) := by
  apply ext_entries
  cases h : m.get? k with
  | none =>
    have h' : (m.mapValues fun _ => f).get? k = none := by rw [get?_mapValues, h, Option.map_none]
    rw [set, dif_pos h, set, dif_pos h']
    simp [append, mapValues]
  | some w =>
    have h' : (m.mapValues fun _ => f).get? k = some (f w) := by
      rw [get?_mapValues, h, Option.map_some]
    rw [set_eq_modify h, set_eq_modify h']
    simp only [modify, mapValues, List.map_map]
    apply List.map_congr_left
    intro e _
    by_cases he : e.1 = k <;> simp [he]

@[simp] theorem keys_modify (m : JsMap K V) (k : K) (f : V → V) : (m.modify k f).keys = m.keys := by
  rw [modify, keys_mapValues]

@[simp] theorem size_modify (m : JsMap K V) (k : K) (f : V → V) : (m.modify k f).size = m.size := by
  simp [size, modify, mapValues]

/-! ## Sizes -/

theorem size_set (m : JsMap K V) (k : K) (v : V) :
    (m.set k v).size = if m.get? k = none then m.size + 1 else m.size := by
  by_cases h : m.get? k = none
  · rw [if_pos h, set, dif_pos h]
    simp [append, size]
  · obtain ⟨w, hw⟩ := Option.ne_none_iff_exists'.mp h
    rw [if_neg h, set_eq_modify hw, size_modify]

variable {α : Type}

theorem foldl_set_get? (f : α → K) (g : α → V) (as : List α) (m : JsMap K V) {k : K} {v : V}
    (h : (as.foldl (fun m a => m.set (f a) (g a)) m).get? k = some v) :
    m.get? k = some v ∨ ∃ a ∈ as, f a = k ∧ g a = v := by
  induction as generalizing m with
  | nil => exact .inl h
  | cons a as ih =>
    rcases ih _ h with h | ⟨b, hb, hk⟩
    · rw [get?_set] at h
      split at h
      · exact .inr ⟨a, by simp, Eq.symm ‹_›, Option.some.inj h⟩
      · exact .inl h
    · exact .inr ⟨b, by simp [hb], hk⟩

theorem size_foldl_set_le (f : α → K) (g : α → V) (as : List α) (m : JsMap K V) :
    (as.foldl (fun m a => m.set (f a) (g a)) m).size ≤ m.size + as.length := by
  induction as generalizing m with
  | nil => exact Nat.le_refl _
  | cons a as ih =>
    have h := ih (m.set (f a) (g a))
    rw [size_set] at h
    rw [List.foldl_cons, List.length_cons]
    split at h <;> omega

/-- Writes under distinct fresh keys are appended in their order. -/
theorem entries_foldl_set (f : α → K) (g : α → V) (as : List α) (m : JsMap K V)
    (hnd : (as.map f).Nodup) (hfree : ∀ a ∈ as, m.get? (f a) = none) :
    (as.foldl (fun m a => m.set (f a) (g a)) m).entries =
      m.entries ++ as.map fun a => (f a, g a) := by
  induction as generalizing m with
  | nil => simp
  | cons a as ih =>
    rw [List.map_cons, List.nodup_cons] at hnd
    rw [List.foldl_cons, ih _ hnd.2]
    · rw [set, dif_pos (hfree a (by simp))]
      simp [append]
    · intro b hb
      have hne : f b ≠ f a := fun h => hnd.1 (h ▸ List.mem_map_of_mem hb)
      rw [get?_set, if_neg hne]
      exact hfree b (by simp [hb])

/-- Writes under distinct fresh keys each add an entry. -/
theorem size_foldl_set (f : α → K) (g : α → V) (as : List α) (m : JsMap K V)
    (hnd : (as.map f).Nodup) (hfree : ∀ a ∈ as, m.get? (f a) = none) :
    (as.foldl (fun m a => m.set (f a) (g a)) m).size = m.size + as.length := by
  rw [size, entries_foldl_set f g as m hnd hfree, List.length_append, List.length_map, size]

/-! ## Counting values -/

/-- Rewriting the value of a key that occurs once moves a count by that value alone. -/
theorem countP_values_modify {m : JsMap K V} {k : K} {v : V} (h : m.get? k = some v) (f : V → V)
    (p : V → Bool) :
    (m.modify k f).values.countP p + (if p v then 1 else 0) =
      m.values.countP p + (if p (f v) then 1 else 0) := by
  obtain ⟨es, hes⟩ := m
  simp only [get?_eq_some] at h
  simp only [values, modify, mapValues, List.map_map]
  induction es with
  | nil => cases h
  | cons e es ih =>
    simp only [List.map_cons, List.nodup_cons] at hes
    simp only [List.map_cons, List.countP_cons, Function.comp_apply]
    rcases List.mem_cons.mp h with rfl | hm
    · -- the head is the entry: the tail has no other entry of that key
      have htail : es.map (Prod.snd ∘ fun e => (e.1, if e.1 = k then f e.2 else e.2)) =
          es.map Prod.snd := by
        apply List.map_congr_left
        intro e' he'
        have hne : e'.1 ≠ k := fun hk => hes.1 (List.mem_map.mpr ⟨e', he', hk⟩)
        simp [hne]
      rw [htail]
      simp only [if_true]
      omega
    · have hne : e.1 ≠ k := fun hk => hes.1 (List.mem_map.mpr ⟨_, hm, hk.symm⟩)
      have := ih hes.2 hm
      simp only [hne, if_false]
      omega

theorem countP_values_pos {m : JsMap K V} {k : K} {v : V} (h : m.get? k = some v) {p : V → Bool}
    (hp : p v = true) : 0 < m.values.countP p :=
  List.countP_pos_iff.mpr ⟨v, mem_values.mpr ⟨k, h⟩, hp⟩

end JsMap
