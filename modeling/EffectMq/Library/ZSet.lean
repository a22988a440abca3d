import Mathlib.Data.List.Induction
import Mathlib.Data.List.Sort
import Mathlib.Data.Prod.Lex

/-! # Sorted sets

The sorted set of Redis: members with scores, each member once, iterated by score and then by member.
`add` is `ZADD`, `rem` is `ZREM`, `members` is `ZRANGE 0 -1`, and `range p` is `ZRANGEBYSCORE` with
the bounds as a predicate.

`score?_add`, `score?_rem` and `mem_members` reduce every question about membership to one about
scores, and `ext_score?` says that scores are all there is.
-/

set_option autoImplicit false
set_option maxHeartbeats 250000

/-- A sorted set with scores `S` and members `M`. -/
structure ZSet (S M : Type) [LinearOrder S] [LinearOrder M] where
  entries : List (S ×ₗ M)
  sorted : entries.Pairwise (· ≤ ·)
  nodup : (entries.map fun e => (ofLex e).2).Nodup

namespace ZSet

variable {S M : Type} [LinearOrder S] [LinearOrder M]

/-! ## Operations -/

def empty : ZSet S M := ⟨[], List.Pairwise.nil, List.nodup_nil⟩

instance : EmptyCollection (ZSet S M) := ⟨empty⟩

def score? (z : ZSet S M) (m : M) : Option S :=
  (z.entries.find? fun e => decide ((ofLex e).2 = m)).map fun e => (ofLex e).1

def rem (z : ZSet S M) (m : M) : ZSet S M where
  entries := z.entries.filter fun e => decide ((ofLex e).2 ≠ m)
  sorted := z.sorted.sublist List.filter_sublist
  nodup := z.nodup.sublist (List.filter_sublist.map _)

theorem notMem_rem (z : ZSet S M) (m : M) : m ∉ (z.rem m).entries.map fun e => (ofLex e).2 := by
  simp [rem]

/-- A member that is there moves to its new score. -/
def add (z : ZSet S M) (m : M) (s : S) : ZSet S M where
  entries := (z.rem m).entries.orderedInsert (· ≤ ·) (toLex (s, m))
  sorted := (z.rem m).sorted.orderedInsert _ _
  nodup := by
    have hperm := (List.perm_orderedInsert (· ≤ ·) (toLex (s, m)) (z.rem m).entries).map
      fun e => (ofLex e).2
    rw [hperm.nodup_iff, List.map_cons, List.nodup_cons]
    exact ⟨z.notMem_rem m, (z.rem m).nodup⟩

def members (z : ZSet S M) : List M := z.entries.map fun e => (ofLex e).2

/-- `ZRANGE 0 -1 WITHSCORES`. -/
def withScores (z : ZSet S M) : List (M × S) := z.entries.map fun e => ((ofLex e).2, (ofLex e).1)

def card (z : ZSet S M) : ℕ := z.entries.length

/-- The members whose score passes, in order. -/
def range (z : ZSet S M) (p : S → Bool) : List M :=
  (z.entries.filter fun e => p (ofLex e).1).map fun e => (ofLex e).2

/-! ## Scores -/

theorem score?_eq_some {z : ZSet S M} {m : M} {s : S} :
    z.score? m = some s ↔ toLex (s, m) ∈ z.entries := by
  obtain ⟨es, hsorted, hnd⟩ := z
  unfold score?
  simp only
  clear hsorted
  induction es with
  | nil => simp
  | cons e es ih =>
    rw [List.map_cons, List.nodup_cons] at hnd
    rw [List.find?_cons, List.mem_cons]
    by_cases he : (ofLex e).2 = m
    · have hnot : toLex (s, m) ∉ es := fun hm => hnd.1 (List.mem_map.mpr ⟨_, hm, he.symm⟩)
      rw [decide_eq_true he]
      simp only [Option.map_some, Option.some.injEq, hnot, or_false]
      constructor
      · rintro rfl
        rw [← he]
        rfl
      · intro h
        rw [← h]
        rfl
    · rw [decide_eq_false he, ih hnd.2]
      constructor
      · exact .inr
      · rintro (h | h)
        · exact absurd (congrArg (fun e => (ofLex e).2) h.symm) he
        · exact h

theorem mem_withScores {z : ZSet S M} {e : M × S} :
    e ∈ z.withScores ↔ z.score? e.1 = some e.2 := by
  rw [withScores, List.mem_map, score?_eq_some]
  constructor
  · rintro ⟨e', he, rfl⟩
    exact he
  · intro h
    exact ⟨_, h, rfl⟩

theorem map_fst_withScores (z : ZSet S M) : z.withScores.map Prod.fst = z.members := by
  rw [withScores, List.map_map]
  rfl

theorem score?_eq_none {z : ZSet S M} {m : M} : z.score? m = none ↔ m ∉ z.members := by
  rw [Option.eq_none_iff_forall_not_mem, members, List.mem_map]
  constructor
  · rintro h ⟨e, he, rfl⟩
    exact h _ (score?_eq_some.mpr he)
  · intro h s hs
    exact h ⟨_, score?_eq_some.mp hs, rfl⟩

theorem mem_members {z : ZSet S M} {m : M} : m ∈ z.members ↔ ∃ s, z.score? m = some s := by
  rw [← Option.isSome_iff_exists, Option.isSome_iff_ne_none, ne_eq, score?_eq_none, not_not]

@[simp] theorem score?_empty (m : M) : (∅ : ZSet S M).score? m = none := rfl

@[simp] theorem score?_rem (z : ZSet S M) (m m' : M) :
    (z.rem m).score? m' = if m' = m then none else z.score? m' := by
  by_cases h : m' = m
  · subst h
    rw [if_pos rfl, score?_eq_none]
    exact z.notMem_rem m'
  · rw [if_neg h]
    apply Option.ext
    intro s
    rw [score?_eq_some, score?_eq_some, rem, List.mem_filter]
    simp [h]

@[simp] theorem score?_add (z : ZSet S M) (m m' : M) (s : S) :
    (z.add m s).score? m' = if m' = m then some s else z.score? m' := by
  apply Option.ext
  intro t
  rw [score?_eq_some, add, List.mem_orderedInsert]
  by_cases h : m' = m
  · subst h
    have hnot : toLex (t, m') ∉ (z.rem m').entries := fun hm =>
      z.notMem_rem m' (List.mem_map.mpr ⟨_, hm, rfl⟩)
    simp [hnot, eq_comm]
  · have hrem := score?_rem z m m'
    rw [if_neg h] at hrem
    rw [if_neg h, ← hrem, score?_eq_some]
    simp [h]

/-- `ZADD` of one member after the other. -/
def ofList (l : List (M × S)) : ZSet S M := l.foldl (fun z e => z.add e.1 e.2) ∅

theorem score?_ofList {l : List (M × S)} (hnodup : (l.map Prod.fst).Nodup) {m : M} {s : S} :
    (ofList l).score? m = some s ↔ (m, s) ∈ l := by
  induction l using List.reverseRecOn with
  | nil => simp [ofList]
  | append_singleton l e ih =>
    have hadd : ofList (l ++ [e]) = (ofList l).add e.1 e.2 := List.foldl_append ..
    rw [List.map_append, List.nodup_append] at hnodup
    rw [hadd, score?_add, List.mem_append, List.mem_singleton]
    by_cases hm : m = e.1
    · have hnot : (m, s) ∉ l := fun hmem =>
        hnodup.2.2 m (List.mem_map_of_mem hmem) e.1 (List.mem_singleton_self _) hm
      rw [if_pos hm, Option.some.injEq, or_iff_right hnot, hm, Prod.ext_iff, eq_comm]
      exact (and_iff_right rfl).symm
    · have hne : (m, s) ≠ e := fun heq => hm (congrArg Prod.fst heq)
      rw [if_neg hm, ih hnodup.1, or_iff_left hne]

/-- Scores are all there is. -/
theorem ext_score? {z z' : ZSet S M} (h : ∀ m, z.score? m = z'.score? m) : z = z' := by
  have hmem : ∀ e, e ∈ z.entries ↔ e ∈ z'.entries := fun e => by
    have hs := h (ofLex e).2
    constructor
    · intro he
      exact score?_eq_some.mp (hs.symm.trans (score?_eq_some (s := (ofLex e).1).mpr he))
    · intro he
      exact score?_eq_some.mp (hs.trans (score?_eq_some (s := (ofLex e).1).mpr he))
  have hperm : z.entries.Perm z'.entries :=
    (List.perm_ext_iff_of_nodup z.nodup.of_map z'.nodup.of_map).mpr hmem
  have hentries := hperm.eq_of_pairwise (fun _ _ _ _ h h' => le_antisymm h h') z.sorted z'.sorted
  cases z
  cases z'
  simp_all

theorem rem_of_score?_eq_none {z : ZSet S M} {m : M} (h : z.score? m = none) : z.rem m = z := by
  apply ext_score?
  intro m'
  rw [score?_rem]
  split
  · subst_vars
    exact h.symm
  · rfl

/-! ## Ranges -/

theorem nodup_members (z : ZSet S M) : z.members.Nodup := z.nodup

theorem mem_range {z : ZSet S M} {p : S → Bool} {m : M} :
    m ∈ z.range p ↔ ∃ s, z.score? m = some s ∧ p s = true := by
  rw [range, List.mem_map]
  constructor
  · rintro ⟨e, he, rfl⟩
    rw [List.mem_filter] at he
    exact ⟨_, score?_eq_some.mpr he.1, he.2⟩
  · rintro ⟨s, hs, hp⟩
    exact ⟨_, List.mem_filter.mpr ⟨score?_eq_some.mp hs, hp⟩, rfl⟩

theorem nodup_range (z : ZSet S M) (p : S → Bool) : (z.range p).Nodup :=
  z.nodup.sublist (List.filter_sublist.map _)

theorem range_rem (z : ZSet S M) (m : M) (p : S → Bool) :
    (z.rem m).range p = (z.range p).filter fun m' => decide (m' ≠ m) := by
  rw [range, range, rem, List.filter_map, List.filter_filter, List.filter_filter]
  congr 2
  funext e
  exact Bool.and_comm ..

theorem rem_of_notMem {z : ZSet S M} {m : M} (h : m ∉ z.members) : z.rem m = z :=
  rem_of_score?_eq_none (score?_eq_none.mpr h)

theorem card_rem_lt {z : ZSet S M} {m : M} (h : m ∈ z.members) : (z.rem m).card < z.card := by
  obtain ⟨e, he, rfl⟩ := List.mem_map.mp h
  exact List.length_filter_lt_length_iff_exists.mpr ⟨e, he, by simp⟩

/-- Members of one score are in their own order. -/
theorem pairwise_range (z : ZSet S M) {p : S → Bool} {s : S} (hp : ∀ t, p t = true → t = s) :
    (z.range p).Pairwise (· < ·) := by
  have hle : (z.range p).Pairwise (· ≤ ·) := by
    rw [range, List.pairwise_map]
    refine (z.sorted.sublist List.filter_sublist).imp_of_mem ?_
    intro a b ha hb hab
    have hscore : (ofLex a).1 = (ofLex b).1 :=
      (hp _ (List.mem_filter.mp ha).2).trans (hp _ (List.mem_filter.mp hb).2).symm
    rcases Prod.Lex.le_iff.mp hab with hlt | ⟨_, hle⟩
    · exact absurd hscore hlt.ne
    · exact hle
  exact (hle.and (z.nodup_range p)).imp fun h => lt_of_le_of_ne h.1 h.2

theorem withScores_rem (z : ZSet S M) (m : M) :
    (z.rem m).withScores = z.withScores.filter fun e => decide (e.1 ≠ m) := by
  rw [withScores, withScores, rem, List.filter_map]
  rfl

/-- A sorted set that has lost some members lists the others as before. -/
theorem withScores_of_score? {z z' : ZSet S M} {gone : List M}
    (h : ∀ m, z'.score? m = if m ∈ gone then none else z.score? m) :
    z'.withScores = z.withScores.filter fun e => decide (e.1 ∉ gone) := by
  induction gone generalizing z with
  | nil =>
    have hsame : z' = z := ext_score? fun m => (h m).trans (if_neg List.not_mem_nil)
    simp [hsame]
  | cons m gone ih =>
    have hrem : ∀ m', z'.score? m' = if m' ∈ gone then none else (z.rem m).score? m' := by
      intro m'
      rw [h, score?_rem]
      by_cases hm : m' = m <;> simp [hm]
    rw [ih hrem, withScores_rem, List.filter_filter]
    apply List.filter_congr
    intro e _
    simp [Bool.and_comm]

theorem nodup_withScores (z : ZSet S M) : (z.withScores.map Prod.fst).Nodup := by
  rw [map_fst_withScores]
  exact z.nodup_members

/-! ## The first that passes -/

/-- Of the members that pass, `find?` gives the least. -/
theorem find?_members_le {z : ZSet S M} {p : M → Bool} {m : M} {s : S}
    (hfind : z.members.find? p = some m) (hs : z.score? m = some s) {m' : M} {s' : S}
    (hs' : z.score? m' = some s') (hp : p m' = true) : s < s' ∨ s = s' ∧ m ≤ m' := by
  rw [List.find?_eq_some_iff_append] at hfind
  obtain ⟨-, before, after, hsplit, hbefore⟩ := hfind
  obtain ⟨es₁, rest, hentries, hes₁, hrest⟩ := List.map_eq_append_iff.mp hsplit
  obtain ⟨e, es₂, hcons, hm, hes₂⟩ := List.map_eq_cons_iff.mp hrest
  subst hcons
  have hmem : toLex (s, m) ∈ z.entries := score?_eq_some.mp hs
  have hmem' : toLex (s', m') ∈ z.entries := score?_eq_some.mp hs'
  have he : e ∈ z.entries := by rw [hentries]; simp
  have heq : e = toLex (s, m) := List.inj_on_of_nodup_map z.nodup he hmem (by rw [hm]; rfl)
  subst heq
  have hsorted := z.sorted
  rw [hentries] at hsorted hmem'
  rcases List.mem_append.mp hmem' with hin | hin
  · have hfails := hbefore m' (by rw [← hes₁]; exact List.mem_map.mpr ⟨_, hin, rfl⟩)
    rw [hp] at hfails
    cases hfails
  · have hle : toLex (s, m) ≤ toLex (s', m') := by
      rcases List.mem_cons.mp hin with heq | hin
      · exact heq.ge
      · exact (List.pairwise_cons.mp (List.pairwise_append.mp hsorted).2.1).1 _ hin
    exact Prod.Lex.toLex_le_toLex.mp hle

end ZSet
