import EffectMq.Library.JsMap
import EffectMq.Library.ZSet

/-! # Sorted sets that index a map

A store keeps rows in a map and lists them in sorted sets. `entry k v i` is what the row `v` under the
key `k` should be listed as in the sorted set `i`, and `Lists` says that every sorted set lists exactly
that. A write of one row keeps it when it swaps the row's entries (`Lists.write`).
-/

set_option autoImplicit false
set_option maxHeartbeats 250000

namespace JsMap

variable {K V : Type} [DecidableEq K]

/-- Maps with the same rows count the same. -/
theorem countP_values_congr {m m' : JsMap K V} (h : ∀ k, m'.get? k = m.get? k) (p : V → Bool) :
    m'.values.countP p = m.values.countP p := by
  have hperm : m'.entries.Perm m.entries := by
    rw [List.perm_ext_iff_of_nodup m'.nodup.of_map m.nodup.of_map]
    intro e
    rw [← get?_eq_some, ← get?_eq_some, h]
  exact (hperm.map Prod.snd).countP_eq p

/-- What a row counts for. -/
def weight (p : V → Bool) (v? : Option V) : ℕ := if v?.any p then 1 else 0

theorem countP_values_delete (m : JsMap K V) (k : K) (p : V → Bool) :
    (m.delete k).values.countP p + weight p (m.get? k) = m.values.countP p := by
  obtain ⟨es, hes⟩ := m
  simp only [values, delete, get?, List.countP_map]
  induction es with
  | nil => rfl
  | cons e es ih =>
    obtain ⟨k', v⟩ := e
    rw [List.map_cons, List.nodup_cons] at hes
    have hrest := ih hes.2
    rw [List.filter_cons, List.lookup_cons, List.countP_cons]
    by_cases hk : k' = k
    · subst hk
      have hkeep : (es.filter fun e => decide (e.1 ≠ k')) = es := by
        rw [List.filter_eq_self]
        intro e he
        exact decide_eq_true fun heq => hes.1 (List.mem_map.mpr ⟨e, he, heq⟩)
      rw [if_neg (by simp), hkeep]
      simp [weight]
    · have hb : (k == k') = false := by simp [Ne.symm hk]
      rw [if_pos (by simpa using hk), List.countP_cons, hb]
      simp only at hrest ⊢
      omega

/-- A write of one row moves a count by that row alone. -/
theorem countP_values_write {m m' : JsMap K V} {k : K} (h : ∀ k', k' ≠ k → m'.get? k' = m.get? k')
    (p : V → Bool) :
    m'.values.countP p + weight p (m.get? k) = m.values.countP p + weight p (m'.get? k) := by
  have hrest : (m'.delete k).values.countP p = (m.delete k).values.countP p := by
    apply countP_values_congr
    intro k'
    rw [get?_delete, get?_delete]
    split
    · rfl
    next hk => exact h k' hk
  have hm := countP_values_delete m k p
  have hm' := countP_values_delete m' k p
  omega

end JsMap

namespace ZSet

variable {S M : Type} [LinearOrder S] [LinearOrder M]

/-- One entry goes and another comes. -/
def swap (z : ZSet S M) (old new : Option (M × S)) : ZSet S M :=
  let z := old.elim z fun e => z.rem e.1
  new.elim z fun e => z.add e.1 e.2

@[simp] theorem swap_none_none (z : ZSet S M) : z.swap none none = z := rfl

@[simp] theorem swap_some_none (z : ZSet S M) (e : M × S) : z.swap (some e) none = z.rem e.1 := rfl

@[simp] theorem swap_none_some (z : ZSet S M) (e : M × S) : z.swap none (some e) = z.add e.1 e.2 := rfl

@[simp] theorem swap_some_some (z : ZSet S M) (e e' : M × S) :
    z.swap (some e) (some e') = (z.rem e.1).add e'.1 e'.2 := rfl

/-- `ZADD` moves a member by itself. -/
@[simp] theorem add_rem (z : ZSet S M) (m : M) (s : S) : (z.rem m).add m s = z.add m s := by
  apply ext_score?
  intro m'
  rw [score?_add, score?_add, score?_rem]
  split <;> rfl

theorem add_of_score? {z : ZSet S M} {m : M} {s : S} (h : z.score? m = some s) : z.add m s = z := by
  apply ext_score?
  intro m'
  rw [score?_add]
  split
  next hm => rw [hm, h]
  next => rfl

theorem swap_ite (z : ZSet S M) (p q : Prop) [Decidable p] [Decidable q] (e e' : M × S) :
    z.swap (if p then some e else none) (if q then some e' else none) =
      if q then (if p then z.rem e.1 else z).add e'.1 e'.2 else if p then z.rem e.1 else z := by
  split_ifs <;> rfl

theorem swap_ite_none (z : ZSet S M) (p : Prop) [Decidable p] (e : M × S) :
    z.swap (if p then some e else none) none = if p then z.rem e.1 else z := by
  split_ifs <;> rfl

theorem swap_none_ite (z : ZSet S M) (q : Prop) [Decidable q] (e : M × S) :
    z.swap none (if q then some e else none) = if q then z.add e.1 e.2 else z := by
  split_ifs <;> rfl

theorem score?_swap {z : ZSet S M} {old new : Option (M × S)} {m : M} {s : S} :
    (z.swap old new).score? m = some s ↔
      new = some (m, s) ∨
        (∀ e ∈ new, e.1 ≠ m) ∧ (∀ e ∈ old, e.1 ≠ m) ∧ z.score? m = some s := by
  have hrem : (old.elim z fun e => z.rem e.1).score? m = some s ↔
      (∀ e ∈ old, e.1 ≠ m) ∧ z.score? m = some s := by
    cases old with
    | none => simp
    | some e =>
      rw [Option.elim_some, score?_rem]
      by_cases hm : m = e.1
      · simp [hm]
      · simp [hm, Ne.symm hm]
  cases new with
  | none => simpa [swap] using hrem
  | some e =>
    obtain ⟨m', s'⟩ := e
    rw [swap, Option.elim_some, score?_add]
    by_cases hm : m = m'
    · simp [hm]
    · rw [if_neg hm, hrem]
      simp [Ne.symm hm]

end ZSet

namespace Indexes

variable {ι S M K V : Type}

/-- What a row, if there is one, is listed as. -/
def entryOf (entry : K → V → ι → Option (M × S)) (k : K) (v? : Option V) (i : ι) : Option (M × S) :=
  v?.bind fun v => entry k v i

@[simp] theorem entryOf_none (entry : K → V → ι → Option (M × S)) (k : K) (i : ι) :
    entryOf entry k none i = none := rfl

@[simp] theorem entryOf_some (entry : K → V → ι → Option (M × S)) (k : K) (v : V) (i : ι) :
    entryOf entry k (some v) i = entry k v i := rfl

/-- A member tells the row it stands for. -/
def Owned (entry : K → V → ι → Option (M × S)) : Prop :=
  ∀ i k v k' v' a s s', entry k v i = some (a, s) → entry k' v' i = some (a, s') → k = k'

variable [LinearOrder S] [LinearOrder M] [DecidableEq K]

/-- Every sorted set lists exactly what it should. -/
def Lists (entry : K → V → ι → Option (M × S)) (m : JsMap K V) (z : ι → ZSet S M) : Prop :=
  ∀ i a s, (z i).score? a = some s ↔ ∃ k, entryOf entry k (m.get? k) i = some (a, s)

variable {entry : K → V → ι → Option (M × S)} {m m' : JsMap K V} {z z' : ι → ZSet S M}

theorem lists_empty : Lists entry ∅ fun _ => ∅ := by
  intro i a s
  simp

/-- A row that is listed as nothing has no member of its own there. -/
theorem Lists.rem_absent (h : Lists entry m z) {i : ι} {a : M} {k : K}
    (howner : ∀ k' v s, entry k' v i = some (a, s) → k' = k)
    (hk : entryOf entry k (m.get? k) i = none) : (z i).rem a = z i := by
  apply ZSet.rem_of_score?_eq_none
  rw [Option.eq_none_iff_forall_ne_some]
  intro s hs
  obtain ⟨k', hk'⟩ := (h i a s).mp hs
  obtain ⟨v, hv, hentry⟩ := Option.bind_eq_some_iff.mp hk'
  obtain rfl := howner k' v s hentry
  rw [hk'] at hk
  cases hk

theorem Lists.swap_self (h : Lists entry m z) (k : K) (i : ι) :
    (z i).swap (entryOf entry k (m.get? k) i) (entryOf entry k (m.get? k) i) = z i := by
  cases he : entryOf entry k (m.get? k) i with
  | none => rfl
  | some e =>
    rw [ZSet.swap_some_some, ZSet.add_rem]
    exact ZSet.add_of_score? ((h i e.1 e.2).mpr ⟨k, he⟩)

/-- A write of one row that swaps the row's entries. -/
theorem Lists.write (h : Lists entry m z) (howned : Owned entry) {k : K}
    (hm : ∀ k', k' ≠ k → m'.get? k' = m.get? k')
    (hz : ∀ i, z' i = (z i).swap (entryOf entry k (m.get? k) i) (entryOf entry k (m'.get? k) i)) :
    Lists entry m' z' := by
  intro i a s
  rw [hz, ZSet.score?_swap, h i a s]
  constructor
  · rintro (hnew | ⟨-, hold, k', hk'⟩)
    · exact ⟨k, hnew⟩
    · refine ⟨k', ?_⟩
      rw [hm k' ?_]
      · exact hk'
      · rintro rfl
        exact hold (a, s) hk' rfl
  · rintro ⟨k', hk'⟩
    by_cases hkk : k' = k
    · subst hkk
      exact .inl hk'
    · have hother : ∀ v? e, entryOf entry k v? i = some e → e.1 ≠ a := by
        intro v? e he hea
        obtain ⟨v, -, hv⟩ := Option.bind_eq_some_iff.mp he
        obtain ⟨v', -, hv'⟩ := Option.bind_eq_some_iff.mp hk'
        subst hea
        exact hkk (howned i k' v' k v e.1 s e.2 hv' hv)
      rw [hm k' hkk] at hk'
      exact .inr ⟨fun e he => hother _ e he, fun e he => hother _ e he, k', hk'⟩

/-- A write that leaves the entries of its row as they are. -/
theorem Lists.of_same (h : Lists entry m z)
    (hm : ∀ k i, entryOf entry k (m'.get? k) i = entryOf entry k (m.get? k) i) (hz : z' = z) :
    Lists entry m' z' := by
  intro i a s
  rw [hz, h i a s]
  exact exists_congr fun k => by rw [hm]

end Indexes
