import Mathlib.Algebra.Order.Floor.Div
import Mathlib.Order.RelClasses

/-! # Keyset pagination

A collection is served in pages along a strict order `r` of keys. The cursor of a page is the key of
its last element, and the next page starts strictly behind it. Nothing else is kept between the
pages, so the collection may change and the element at the cursor may be gone.

* `page_cases` is what one page does: it is the last one, or it is full and ends at its cursor.
* `drain_exact` is the walk over a collection that does not change.
* `mem_page`, `page_reaches` and `page_served` are what a walk over a changing one rests on: nothing
  behind the cursor is passed over, and nothing served lies behind the next one.
* `Trail` is such a walk: `Trail.Ordered.turn` and `Trail.Reaches.turn` are what each page keeps.
-/

namespace Paging
set_option autoImplicit false
set_option maxHeartbeats 250000

variable {α κ : Type}

structure Page (α κ : Type) where
  items : List α
  next : Option κ

section Order

variable (r : κ → κ → Prop) (key : α → κ)

/-- Strictly behind the cursor. -/
def Behind (cursor : Option κ) (x : α) : Prop := ∀ k, cursor = some k → r k (key x)

def Sorted (xs : List α) : Prop := xs.Pairwise fun x y => r (key x) (key y)

variable [DecidableRel r]

instance (cursor : Option κ) (x : α) : Decidable (Behind r key cursor x) :=
  match cursor with
  | none => .isTrue fun _ h => by cases h
  | some k => decidable_of_iff (r k (key x)) ⟨fun h _ hk => by cases hk; exact h, fun h => h k rfl⟩

def behind (cursor : Option κ) (xs : List α) : List α :=
  xs.filter fun x => decide (Behind r key cursor x)

/-- The page of at most `limit` elements behind a cursor. -/
def page (limit : ℕ) (xs : List α) (cursor : Option κ) : Page α κ :=
  let rest := behind r key cursor xs
  { items := rest.take limit
    next := if limit < rest.length then (rest[limit - 1]?).map key else none }

/-- Follow the cursors over a fixed collection, for at most so many pages. -/
def drain (limit : ℕ) (xs : List α) : ℕ → Option κ → Option (List (Page α κ))
  | 0, _ => none
  | fuel + 1, cursor =>
    let p := page r key limit xs cursor
    match p.next with
    | none => some [p]
    | some k => (drain limit xs fuel (some k)).map (p :: ·)

end Order

/-- A sorted list is told by its members. -/
theorem Sorted.ext {r : κ → κ → Prop} [IsStrictOrder κ r] {key : α → κ} {xs ys : List α}
    (hx : Sorted r key xs) (hy : Sorted r key ys) (h : ∀ a, a ∈ xs ↔ a ∈ ys) : xs = ys := by
  have hnodup : ∀ {zs : List α}, Sorted r key zs → zs.Nodup := fun hz =>
    hz.imp fun {a b} hab heq => by
      subst heq
      exact irrefl_of r _ hab
  refine List.Perm.eq_of_pairwise (fun a b _ _ hab hba => ?_) hx hy
    ((List.perm_ext_iff_of_nodup (hnodup hx) (hnodup hy)).mpr h)
  exact absurd (trans_of r hab hba) (irrefl_of r _)

/-! ## One page -/

/-- A full page in front is one page more. -/
theorem pageCount_add {limit m : ℕ} (hlimit : 0 < limit) (hm : 0 < m) :
    max 1 ((limit + m) ⌈/⌉ limit) = max 1 (m ⌈/⌉ limit) + 1 := by
  have hstep : (limit + m) ⌈/⌉ limit = m ⌈/⌉ limit + 1 := by
    rw [Nat.ceilDiv_eq_add_pred_div, Nat.ceilDiv_eq_add_pred_div,
      show limit + m + limit - 1 = (m + limit - 1) + limit by omega, Nat.add_div_right _ hlimit]
  have hpos : 0 < m ⌈/⌉ limit := by
    rw [Nat.ceilDiv_eq_add_pred_div]
    exact Nat.div_pos (by omega) hlimit
  omega

section Page

variable {r : κ → κ → Prop} {key : α → κ} [DecidableRel r] {limit : ℕ} {xs : List α}
  {cursor : Option κ}

theorem behind_none : behind r key none xs = xs := by
  unfold behind
  rw [List.filter_eq_self]
  intro x _
  exact decide_eq_true fun _ h => by cases h

theorem mem_behind {x : α} : x ∈ behind r key cursor xs ↔ x ∈ xs ∧ Behind r key cursor x := by
  simp [behind]

/-- Items come from the collection, behind the cursor. -/
theorem mem_page {x : α} (h : x ∈ (page r key limit xs cursor).items) :
    x ∈ xs ∧ Behind r key cursor x :=
  mem_behind.mp (List.mem_of_mem_take h)

theorem Sorted.behind (h : Sorted r key xs) (cursor : Option κ) :
    Sorted r key (behind r key cursor xs) :=
  List.Pairwise.sublist List.filter_sublist h

theorem page_sorted (h : Sorted r key xs) : Sorted r key (page r key limit xs cursor).items :=
  List.Pairwise.sublist (List.take_sublist _ _) (h.behind cursor)

/-- The page of a translated collection is the translated page. -/
theorem page_map {β ν : Type} {r' : ν → ν → Prop} [DecidableRel r'] {key' : β → ν} {f : α → β} {g : κ → ν}
    (hkey : ∀ x ∈ xs, key' (f x) = g (key x))
    (hr : ∀ x ∈ xs, ∀ k, cursor = some k → (r' (g k) (g (key x)) ↔ r k (key x))) :
    page r' key' limit (xs.map f) (cursor.map g) =
      ⟨(page r key limit xs cursor).items.map f, (page r key limit xs cursor).next.map g⟩ := by
  have hbehind : behind r' key' (cursor.map g) (xs.map f) = (behind r key cursor xs).map f := by
    rw [behind, behind, List.filter_map]
    refine congrArg (List.map f) (List.filter_congr fun x hx => ?_)
    rw [Function.comp_apply, decide_eq_decide, Behind, Behind, hkey x hx]
    constructor
    · exact fun h k hk => (hr x hx k hk).mp (h (g k) (by rw [hk, Option.map_some]))
    · intro h l hl
      obtain ⟨k, hk, rfl⟩ := Option.map_eq_some_iff.mp hl
      exact (hr x hx k hk).mpr (h k hk)
  unfold page
  rw [hbehind]
  simp only [List.length_map, List.map_take, List.getElem?_map, Option.map_map]
  congr 1
  split
  · refine (Option.map_congr fun x hx => ?_).trans (Option.map_map ..).symm
    exact hkey x (mem_behind.mp (List.mem_of_getElem? hx)).1
  · rfl

variable [IsStrictOrder κ r]

/-- What lies behind the last element of a part of a sorted list is the rest of the list. -/
theorem behind_last {init post : List α} {last : α} (h : Sorted r key (init ++ last :: post)) :
    behind r key (some (key last)) (init ++ last :: post) = post := by
  obtain ⟨_, htail, hinit⟩ := List.pairwise_append.mp h
  have hpost := (List.pairwise_cons.mp htail).1
  have hbehind : ∀ x, Behind r key (some (key last)) x ↔ r (key last) (key x) := fun x =>
    ⟨fun h => h _ rfl, fun h k hk => by cases hk; exact h⟩
  unfold behind
  rw [List.filter_append, List.filter_cons_of_neg, List.filter_eq_nil_iff.mpr,
    List.filter_eq_self.mpr, List.nil_append]
  · intro x hx
    simpa [hbehind] using hpost x hx
  · intro x hx
    simpa [hbehind] using asymm_of r (hinit x hx last List.mem_cons_self)
  · simpa [hbehind] using irrefl_of r (key last)

/-- A later cursor subsumes an earlier one. -/
theorem behind_behind {k : κ} (hk : ∀ c, cursor = some c → r c k) :
    behind r key (some k) (behind r key cursor xs) = behind r key (some k) xs := by
  unfold behind
  rw [List.filter_filter]
  apply List.filter_congr
  intro x _
  simp only [← Bool.decide_and, decide_eq_decide, and_iff_left_iff_imp]
  exact fun h c hc => trans_of r (hk c hc) (h k rfl)

/-- A page is the last one and serves all the rest, or it is full and its cursor splits the rest. -/
theorem page_cases (hs : Sorted r key xs) (hlimit : 0 < limit) (cursor : Option κ) :
    ((page r key limit xs cursor).next = none ∧
        (page r key limit xs cursor).items = behind r key cursor xs ∧
        (behind r key cursor xs).length ≤ limit) ∨
      ∃ last ∈ (page r key limit xs cursor).items,
        (page r key limit xs cursor).next = some (key last) ∧
        (page r key limit xs cursor).items.length = limit ∧
        limit < (behind r key cursor xs).length ∧
        behind r key cursor xs =
          (page r key limit xs cursor).items ++ behind r key (some (key last)) xs := by
  obtain ⟨m, rfl⟩ := Nat.exists_eq_add_of_lt hlimit
  simp only [page, Nat.zero_add, Nat.add_sub_cancel]
  by_cases hlt : m + 1 < (behind r key cursor xs).length
  · right
    have hm : m < (behind r key cursor xs).length := by omega
    refine ⟨(behind r key cursor xs)[m], ?_, ?_, ?_, hlt, ?_⟩
    · rw [List.take_succ_eq_append_getElem hm]
      exact List.mem_append_right _ (List.mem_singleton_self _)
    · rw [if_pos hlt, List.getElem?_eq_getElem hm, Option.map_some]
    · rw [List.length_take]
      omega
    · have hcursor : ∀ c, cursor = some c → r c (key (behind r key cursor xs)[m]) := fun c hc =>
        (mem_behind.mp (List.getElem_mem hm)).2 c hc
      have hsplit : (behind r key cursor xs).take m ++
          (behind r key cursor xs)[m] :: (behind r key cursor xs).drop (m + 1) =
            behind r key cursor xs := by
        rw [← List.drop_eq_getElem_cons hm, List.take_append_drop]
      have hrest := behind_last (hsplit.symm ▸ hs.behind cursor)
      rw [hsplit, behind_behind hcursor] at hrest
      rw [hrest, List.take_append_drop]
  · left
    refine ⟨if_neg hlt, List.take_of_length_le (by omega), by omega⟩

/-- What is behind a cursor is on the next page or behind that page's cursor. -/
theorem page_reaches (hs : Sorted r key xs) (hlimit : 0 < limit) {x : α} (hx : x ∈ xs)
    (hb : Behind r key cursor x) :
    x ∈ (page r key limit xs cursor).items ∨
      ∃ k, (page r key limit xs cursor).next = some k ∧ r k (key x) := by
  have hmem : x ∈ behind r key cursor xs := mem_behind.mpr ⟨hx, hb⟩
  rcases page_cases hs hlimit cursor with ⟨_, hitems, _⟩ | ⟨last, _, hnext, _, _, hrest⟩
  · left
    rw [hitems]
    exact hmem
  · rw [hrest, List.mem_append] at hmem
    rcases hmem with h | h
    · exact .inl h
    · exact .inr ⟨key last, hnext, (mem_behind.mp h).2 _ rfl⟩

/-- What a page serves is not behind its cursor. -/
theorem page_served (hs : Sorted r key xs) (hlimit : 0 < limit) {x : α}
    (hx : x ∈ (page r key limit xs cursor).items) {k : κ}
    (hk : (page r key limit xs cursor).next = some k) : ¬ r k (key x) := by
  rcases page_cases hs hlimit cursor with ⟨hnone, _⟩ | ⟨last, _, hnext, _, _, hrest⟩
  · cases hnone.symm.trans hk
  · obtain rfl := Option.some.inj (hnext.symm.trans hk)
    intro hlt
    have hsorted := hs.behind cursor
    rw [hrest] at hsorted
    -- behind the cursor it would also be in the rest, after itself
    have hbehind : x ∈ behind r key (some (key last)) xs :=
      mem_behind.mpr ⟨(mem_page hx).1, fun c hc => by cases hc; exact hlt⟩
    exact irrefl_of r _ ((List.pairwise_append.mp hsorted).2.2 x hx x hbehind)

/-- The cursor moves forward. -/
theorem page_next (hs : Sorted r key xs) (hlimit : 0 < limit) {k : κ}
    (hk : (page r key limit xs cursor).next = some k) : ∀ c, cursor = some c → r c k := by
  rcases page_cases hs hlimit cursor with ⟨hnone, _⟩ | ⟨last, hlast, hnext, _⟩
  · cases hnone.symm.trans hk
  · obtain rfl := Option.some.inj (hnext.symm.trans hk)
    exact (mem_page hlast).2

/-! ## A walk over a collection that does not change -/

/-- The pages serve what is behind the cursor, in order, in as few pages as the limit allows. -/
theorem drain_exact (hs : Sorted r key xs) (hlimit : 0 < limit) (cursor : Option κ) :
    ∃ pages, drain r key limit xs (max 1 ((behind r key cursor xs).length ⌈/⌉ limit)) cursor =
        some pages ∧
      pages.length = max 1 ((behind r key cursor xs).length ⌈/⌉ limit) ∧
      pages.flatMap (·.items) = behind r key cursor xs := by
  induction hn : (behind r key cursor xs).length using Nat.strong_induction_on generalizing cursor
    with
  | _ n ih =>
    rcases page_cases hs hlimit cursor with
      ⟨hnone, hitems, hlen⟩ | ⟨last, _, hnext, hfull, hlt, hrest⟩
    · have hone : max 1 (n ⌈/⌉ limit) = 1 := by
        have : n ⌈/⌉ limit ≤ 1 := by
          rw [ceilDiv_le_iff_le_mul hlimit]
          omega
        omega
      rw [hone]
      refine ⟨[page r key limit xs cursor], ?_, rfl, ?_⟩
      · simp only [drain, hnone]
      · simpa using hitems
    · have hlength : n = limit + (behind r key (some (key last)) xs).length := by
        rw [← hn, hrest, List.length_append, hfull]
      obtain ⟨pages, hdrain, hcount, hserved⟩ := ih _ (by omega) (some (key last)) rfl
      have hpages := pageCount_add hlimit
        (m := (behind r key (some (key last)) xs).length) (by omega)
      rw [← hlength] at hpages
      refine ⟨page r key limit xs cursor :: pages, ?_, ?_, ?_⟩
      · rw [hpages]
        simp only [drain, hnext, hdrain, Option.map_some]
      · rw [List.length_cons, hcount, hpages]
      · rw [List.flatMap_cons, hserved, ← hrest]

end Page

/-! ## A walk over a collection that changes -/

/-- Where a client that follows the cursors stands, and the keys it was served. -/
structure Trail (κ : Type) where
  place : Option κ
  ended : Bool
  served : List κ

def Trail.start : Trail κ := ⟨none, false, []⟩

section Trail

variable (r : κ → κ → Prop)

/-- What was served is in order, and none of it lies behind the cursor. -/
structure Trail.Ordered (t : Trail κ) : Prop where
  sorted : t.served.Pairwise r
  front : ∀ k ∈ t.served, t.ended = false → ∃ c, t.place = some c ∧ (k = c ∨ r k c)

/-- The key was served or is still to come. -/
def Trail.Reaches (k : κ) (t : Trail κ) : Prop :=
  k ∈ t.served ∨ t.ended = false ∧ ∀ c, t.place = some c → r c k

theorem Trail.start_ordered : Trail.start.Ordered r :=
  ⟨List.Pairwise.nil, fun k hk => by cases hk⟩

theorem Trail.start_reaches (k : κ) : Trail.start.Reaches r k :=
  .inr ⟨rfl, fun c hc => by cases hc⟩

variable [DecidableRel r]

/-- The next request, answered from these keys. -/
def Trail.turn (limit : ℕ) (keys : List κ) (t : Trail κ) : Trail κ :=
  let p := page r id limit keys t.place
  ⟨p.next, p.next.isNone, t.served ++ p.items⟩

variable {r} {limit : ℕ} {keys : List κ} {t : Trail κ}

theorem Trail.Ordered.turn [IsStrictTotalOrder κ r] (h : t.Ordered r) (hs : Sorted r id keys)
    (hlimit : 0 < limit) (hopen : t.ended = false) : (t.turn r limit keys).Ordered r where
  sorted := by
    refine List.pairwise_append.mpr ⟨h.sorted, page_sorted hs, fun k hk x hx => ?_⟩
    obtain ⟨c, hc, hle⟩ := h.front k hk hopen
    have hlt : r c x := (mem_page hx).2 c hc
    rcases hle with rfl | hle
    · exact hlt
    · exact trans_of r hle hlt
  front k hk hgoes := by
    obtain ⟨c', hc'⟩ := Option.isSome_iff_exists.mp (Option.isNone_eq_false_iff.mp hgoes)
    refine ⟨c', hc', ?_⟩
    rcases List.mem_append.mp hk with hk | hk
    · obtain ⟨c, hc, hle⟩ := h.front k hk hopen
      have hforward := page_next hs hlimit hc' c hc
      rcases hle with rfl | hle
      · exact .inr hforward
      · exact .inr (trans_of r hle hforward)
    · have hnot := page_served hs hlimit hk hc'
      rcases trichotomous_of r k c' with hlt | heq | hgt
      · exact .inr hlt
      · exact .inl heq
      · exact absurd hgt hnot

/-- A turn serves a key that is there, unless it was served or its turn comes later. -/
theorem Trail.Reaches.turn [IsStrictOrder κ r] {k : κ} (h : t.Reaches r k) (hs : Sorted r id keys)
    (hlimit : 0 < limit) (hk : k ∈ keys) : (t.turn r limit keys).Reaches r k := by
  rcases h with hserved | ⟨-, hbehind⟩
  · exact .inl (List.mem_append_left _ hserved)
  · rcases page_reaches hs hlimit hk hbehind with hnow | ⟨c, hc, hlt⟩
    · exact .inl (List.mem_append_right _ hnow)
    · refine .inr ⟨by rw [Trail.turn, hc]; rfl, fun c' hc' => ?_⟩
      obtain rfl := Option.some.inj (hc.symm.trans hc')
      exact hlt

/-- Pages of rows are pages of their keys. -/
theorem page_keys (r : κ → κ → Prop) [DecidableRel r] (limit : ℕ) (key : α → κ) (xs : List α)
    (cursor : Option κ) :
    (page r id limit (xs.map key) cursor).items = (page r key limit xs cursor).items.map key ∧
      (page r id limit (xs.map key) cursor).next = (page r key limit xs cursor).next := by
  have hbehind : behind r id cursor (xs.map key) = (behind r key cursor xs).map key := by
    unfold behind
    rw [List.filter_map]
    rfl
  simp [page, hbehind, List.map_take]

end Trail

end Paging
