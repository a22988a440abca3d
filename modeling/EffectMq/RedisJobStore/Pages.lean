import Std.Data.String.ToInt
import EffectMq.Library.Paging
import EffectMq.RedisJobStore.ListQueries
import EffectMq.RedisJobStore.Runs

/-! # Pages of the Redis driver

`list` routes a query to one kind of sorted set and leaves the rest to residual predicates. In a
reachable keyspace every route serves the page of the plain query over the hashes, so the cursors lead
through the matching jobs exactly.
-/

namespace EffectMq.Redis
set_option autoImplicit false
set_option maxHeartbeats 250000

open Transition

variable {V : Type} {indexes : IndexConfig}

/-! ## The call -/

def JobHash.orderValue (field : ListField) (job : JobHash V) : ℤ :=
  match field with
  | .enqueuedAt => job.enqueuedAt
  | .runAt => job.runAt
  | .finishedAt => job.finishedAt.getD 0

structure ListPage (V : Type) where
  items : List (JobHash V)
  cursor : Option String

def cursorText (entry : Entry) : String := Int.repr entry.2 ++ ":" ++ entry.1

/-- The rows of the reply stand for the records they fold to. -/
def list (tonumber : String → Option ℤ) (indexes : IndexConfig) (ks : Keyspace V)
    (options : ListOptions) : Except ListDefect (Option (ListPage V × Keyspace V)) :=
  (route indexes options).map fun (sources, residual) =>
    (listScript tonumber ks sources options.descending residual (options.cursor.getD "")
        options.pageSize).map fun (reply, ks) =>
      let last := reply.items.getLast?
      let cursor := last.map fun last => cursorText (last.id, last.orderValue options.field)
      (⟨reply.items, if reply.more then cursor else none⟩, ks)

/-! ## The plain query -/

/-- All the filters of the request. -/
def listAdmits (options : ListOptions) (job : JobHash V) : Bool :=
  ResidualFilters.admits ⟨options.queue, options.name, options.states, options.metadata⟩ job

/-- The jobs that match, in the order of the request. -/
def sortedMatches (ks : Keyspace V) (options : ListOptions) : List (JobId × JobHash V) :=
  (ks.jobs.entries.filter fun row => listAdmits options row.2).insertionSort
    (NotAfter options.descending (rowEntry (·.orderValue options.field)))

abbrev keysetPage (ks : Keyspace V) (options : ListOptions) (cursor : Option Entry) :
    Paging.Page (JobId × JobHash V) Entry :=
  Paging.page (Precedes options.descending) (rowEntry (·.orderValue options.field)) options.pageSize
    (sortedMatches ks options) cursor

def pageResult (page : Paging.Page (JobId × JobHash V) Entry) : ListPage V where
  items := page.items.map (·.2)
  cursor := page.next.map cursorText

instance (desc : Bool) : IsStrictOrder Entry (Precedes desc) where
  irrefl := precedes_irrefl desc
  trans := precedes_trans desc

theorem pastCursor_eq (desc : Bool) (cursor : Option Entry) {α : Type} (entry : α → Entry) (row : α) :
    pastCursor desc cursor (entry row) = decide (Paging.Behind (Precedes desc) entry cursor row) := by
  cases cursor with
  | none => exact (decide_eq_true fun _ h => by cases h).symm
  | some c =>
    simp only [pastCursor, Option.all_some, decide_eq_decide]
    exact ⟨fun h k hk => by cases hk; exact h, fun h => h c rfl⟩

section Matches

variable {ks : Keyspace V} {options : ListOptions}

theorem mem_sortedMatches {row : JobId × JobHash V} : row ∈ sortedMatches ks options ↔
    ks.jobs.get? row.1 = some row.2 ∧ listAdmits options row.2 = true := by
  rw [sortedMatches, List.mem_insertionSort, List.mem_filter, JsMap.get?_eq_some]

theorem sortedMatches_sorted (ks : Keyspace V) (options : ListOptions) :
    Paging.Sorted (Precedes options.descending) (rowEntry (·.orderValue options.field))
      (sortedMatches ks options) := by
  apply sorted_insertionSort
  apply List.Nodup.of_map Prod.fst
  rw [List.map_map]
  exact List.Nodup.sublist (List.filter_sublist.map Prod.fst) ks.jobs.nodup

end Matches

/-! ## Where a job is listed -/

/-- The job is listed in the source. -/
def ListSource.Lists (indexes : IndexConfig) (job : JobHash V) : ListSource → Prop
  | .all => True
  | .byname name => indexes.name = true ∧ name = job.name
  | .byqueue queue => indexes.queue = true ∧ queue = job.queue
  | .delayed queue => job.state = .delayed ∧ queue = job.queue
  | .finished state => state = job.state ∧ job.state.isTerminal = true
  | .terminal name state => name = job.name ∧ state = job.state ∧ job.state.isTerminal = true

/-- What a source is scored by. -/
def ListSource.field : ListSource → ListField
  | .all | .byname _ | .byqueue _ => .enqueuedAt
  | .delayed _ => .runAt
  | .finished _ | .terminal _ _ => .finishedAt

def ListSource.key : ListSource → IndexKey
  | .all => .all
  | .byname name => .byname name
  | .byqueue queue => .byqueue queue
  | .delayed queue => .delayed queue
  | .finished state => .finished state
  | .terminal name state => .terminal name state

theorem index_key (ks : Keyspace V) (source : ListSource) : ks.index source.key = source.zset ks := by
  cases source <;> rfl

theorem listed_key {id : JobId} {job : JobHash V} (hstamped : job.Stamped) (source : ListSource)
    (e : Entry) : job.listed indexes id source.key = some e ↔
      source.Lists indexes job ∧ e = (id, job.orderValue source.field) := by
  have hfinished := hstamped.finished
  cases source <;> simp only [ListSource.key, JobHash.listed, ListSource.Lists, ListSource.field,
    JobHash.orderValue]
  case finished state =>
    split
    next h =>
      obtain ⟨t, ht⟩ := Option.isSome_iff_exists.mp (hfinished h.2)
      simp [h, ht, @eq_comm _ e]
    next h => simp [h]
  case terminal name state =>
    split
    next h =>
      obtain ⟨t, ht⟩ := Option.isSome_iff_exists.mp (hfinished h.2.2)
      simp [h, ht, @eq_comm _ e]
    next h => simp [h]
  all_goals simp [@eq_comm _ e]

/-- A source lists the jobs that exist and belong there, at their order values. -/
theorem score?_zset {ks : Keyspace V} (h : Consistent indexes ks) (source : ListSource) (id : JobId)
    (score : ℤ) : (source.zset ks).score? id = some score ↔
      ∃ job, ks.jobs.get? id = some job ∧ source.Lists indexes job ∧
        score = job.orderValue source.field := by
  rw [← index_key]
  constructor
  · intro hs
    obtain ⟨id', job, hjob, hlisted⟩ := h.member hs
    obtain ⟨hlists, he⟩ := (listed_key (h.sound id' job hjob).stamped source _).mp hlisted
    obtain ⟨rfl, rfl⟩ := Prod.mk.inj he
    exact ⟨job, hjob, hlists, rfl⟩
  · rintro ⟨job, hjob, hlists, rfl⟩
    exact h.score? hjob source.key ((listed_key (h.sound id job hjob).stamped source _).mpr ⟨hlists, rfl⟩)

/-! ## Routes -/

theorem nodup_eraseDups {α : Type} [DecidableEq α] (xs : List α) : xs.eraseDups.Nodup := by
  induction hn : xs.length using Nat.strong_induction_on generalizing xs with
  | _ n ih =>
    cases xs with
    | nil => simp
    | cons x xs =>
      rw [List.eraseDups_cons, List.nodup_cons]
      have hshort : (xs.filter fun y => !y == x).length < n := by
        rw [← hn]
        exact Nat.lt_succ_of_le (List.length_filter_le _ _)
      refine ⟨?_, ih _ hshort _ rfl⟩
      rw [List.mem_eraseDups, List.mem_filter]
      simp

/-- What the routing promises for every job. -/
structure Routed (indexes : IndexConfig) (options : ListOptions) (sources : List ListSource)
    (residual : ResidualFilters) : Prop where
  ordered : ∀ source ∈ sources, source.field = options.field
  apart : ∀ job : JobHash V, sources.Pairwise fun a b =>
    a.Lists indexes job → ¬ b.Lists indexes job
  admits : ∀ job : JobHash V,
    ((∃ source ∈ sources, source.Lists indexes job) ∧ residual.admits job = true) ↔
      listAdmits options job = true

theorem Routed.single {options : ListOptions} {source : ListSource} {residual : ResidualFilters}
    (hordered : source.field = options.field)
    (hadmits : ∀ job : JobHash V,
      source.Lists indexes job ∧ residual.admits job = true ↔ listAdmits options job = true) :
    Routed (V := V) indexes options [source] residual where
  ordered := by simpa using hordered
  apart _ := List.pairwise_singleton ..
  admits job := by simpa using hadmits job


/-- One source for each of the states: a job is in the source of its own state. -/
theorem Routed.states {options : ListOptions} {states : List JobState} {residual : ResidualFilters}
    (source : JobState → ListSource)
    (hordered : ∀ state, (source state).field = options.field)
    (hlists : ∀ state (job : JobHash V), (source state).Lists indexes job → state = job.state)
    (hadmits : ∀ job : JobHash V,
      (job.state ∈ states ∧ (source job.state).Lists indexes job) ∧ residual.admits job = true ↔
        listAdmits options job = true) :
    Routed (V := V) indexes options (states.eraseDups.map source) residual where
  ordered := by
    rintro _ hs
    obtain ⟨state, -, rfl⟩ := List.mem_map.mp hs
    exact hordered state
  apart job := by
    rw [List.pairwise_map]
    refine (nodup_eraseDups states).imp fun {a b} hne ha hb => hne ?_
    rw [hlists a job ha, hlists b job hb]
  admits job := by
    rw [← hadmits job]
    refine and_congr_left fun _ => ⟨?_, fun ⟨hmem, hl⟩ => ?_⟩
    · rintro ⟨_, hs, hl⟩
      obtain ⟨state, hmem, rfl⟩ := List.mem_map.mp hs
      obtain rfl := hlists state job hl
      exact ⟨List.mem_eraseDups.mp hmem, hl⟩
    · exact ⟨_, List.mem_map_of_mem (List.mem_eraseDups.mpr hmem), hl⟩

theorem route_routed {options : ListOptions} {sources : List ListSource} {residual : ResidualFilters}
    (h : route indexes options = .ok (sources, residual)) :
    Routed (V := V) indexes options sources residual := by
  unfold route at h
  cases hfield : options.field with
  | finishedAt =>
    simp only [hfield] at h
    cases hstates : options.states with
    | none =>
      rw [hstates] at h
      cases h
    | some states =>
      simp only [hstates] at h
      split at h
      · cases h
      · rename_i hterminal
        have hall : ∀ state ∈ states, state.isTerminal = true := by simpa using hterminal
        cases hname : options.name with
        | none =>
          simp only [hname, Except.ok.injEq, Prod.mk.injEq] at h
          obtain ⟨rfl, rfl⟩ := h
          refine .states .finished (fun _ => hfield.symm) (fun state job hl => hl.1) fun job => ?_
          have := hall job.state
          simp [listAdmits, ResidualFilters.admits, hname, hstates, ListSource.Lists]
          tauto
        | some name =>
          simp only [hname, Except.ok.injEq, Prod.mk.injEq] at h
          obtain ⟨rfl, rfl⟩ := h
          refine .states (.terminal name) (fun _ => hfield.symm) (fun state job hl => hl.2.1) fun job => ?_
          have := hall job.state
          simp [listAdmits, ResidualFilters.admits, hname, hstates, ListSource.Lists]
          tauto
  | runAt =>
    simp only [hfield] at h
    cases hqueue : options.queue with
    | none =>
      rw [hqueue] at h
      cases h
    | some queue =>
      simp only [hqueue] at h
      split at h
      · rename_i hdelayed
        simp only [Except.ok.injEq, Prod.mk.injEq] at h
        obtain ⟨rfl, rfl⟩ := h
        obtain ⟨states, hstates, honly⟩ := (Option.any_eq_true ..).mp hdelayed
        have hmem : ∀ state, state ∈ states ↔ state = .delayed := by
          simp only [Bool.and_eq_true, Bool.not_eq_true', List.isEmpty_eq_false_iff, List.all_eq_true,
            decide_eq_true_eq] at honly
          obtain ⟨first, hfirst⟩ := List.exists_mem_of_ne_nil states honly.1
          refine fun state => ⟨honly.2 state, fun hs => ?_⟩
          rw [hs, ← honly.2 first hfirst]
          exact hfirst
        refine .single hfield.symm fun job => ?_
        simp [listAdmits, ResidualFilters.admits, hstates, hqueue, ListSource.Lists, hmem]
        tauto
      · cases h
  | enqueuedAt =>
    simp only [hfield] at h
    cases hname : options.name with
    | some name =>
      simp only [hname] at h
      split at h
      · rename_i henabled
        simp only [Except.ok.injEq, Prod.mk.injEq] at h
        obtain ⟨rfl, rfl⟩ := h
        refine .single hfield.symm fun job => ?_
        simp [listAdmits, ResidualFilters.admits, hname, ListSource.Lists, henabled]
        tauto
      · cases h
    | none =>
      simp only [hname] at h
      cases hqueue : options.queue with
      | some queue =>
        simp only [hqueue] at h
        split at h
        · rename_i henabled
          simp only [Except.ok.injEq, Prod.mk.injEq] at h
          obtain ⟨rfl, rfl⟩ := h
          refine .single hfield.symm fun job => ?_
          simp [listAdmits, ResidualFilters.admits, hname, hqueue, ListSource.Lists, henabled]
          tauto
        · cases h
      | none =>
        simp only [hqueue, Except.ok.injEq, Prod.mk.injEq] at h
        obtain ⟨rfl, rfl⟩ := h
        refine .single hfield.symm fun job => ?_
        simp [listAdmits, ResidualFilters.admits, hname, hqueue, ListSource.Lists]

/-! ## The page -/

section Page

variable {ks : Keyspace V} {options : ListOptions} {sources : List ListSource}
  {residual : ResidualFilters}

theorem Routed.disjoint (hr : Routed (V := V) indexes options sources residual)
    (h : Consistent indexes ks) : DisjointSources ks sources := by
  have hapart : sources.Pairwise fun a b => ∀ job : JobHash V,
      a.Lists indexes job → ¬ b.Lists indexes job := by
    rw [List.pairwise_iff_getElem]
    exact fun i j hi hj hij job => List.pairwise_iff_getElem.mp (hr.apart job) i j hi hj hij
  refine hapart.imp fun {a b} hab id ha hb => ?_
  obtain ⟨t, ht⟩ := ZSet.mem_members.mp ha
  obtain ⟨t', ht'⟩ := ZSet.mem_members.mp hb
  obtain ⟨job, hjob, hla, -⟩ := (score?_zset h a id t).mp ht
  obtain ⟨job', hjob', hlb, -⟩ := (score?_zset h b id t').mp ht'
  obtain rfl := Option.some.inj (hjob.symm.trans hjob')
  exact hab job hla hlb

theorem Routed.scored (hr : Routed (V := V) indexes options sources residual)
    (h : Consistent indexes ks) : ScoredBy (·.orderValue options.field) ks sources := by
  intro source hsource id score job hscore hjob
  obtain ⟨job', hjob', -, rfl⟩ := (score?_zset h source id score).mp hscore
  obtain rfl := Option.some.inj (hjob.symm.trans hjob')
  rw [hr.ordered source hsource]

/-- The rows that the script lists are those of the plain query behind the cursor. -/
theorem Routed.rows (hr : Routed (V := V) indexes options sources residual)
    (h : Consistent indexes ks) (cursor : Option Entry) :
    matchingRows (·.orderValue options.field) ks sources options.descending residual cursor =
      Paging.behind (Precedes options.descending) (rowEntry (·.orderValue options.field)) cursor
        (sortedMatches ks options) := by
  refine Paging.Sorted.ext (List.pairwise_map.mp matchingRows_sorted)
    ((sortedMatches_sorted ks options).behind cursor) fun row => ?_
  rw [mem_matchingRows, Paging.mem_behind, mem_sortedMatches, ← hr.admits, pastCursor_eq,
    decide_eq_true_eq]
  have hlisted : ks.jobs.get? row.1 = some row.2 →
      ((∃ source ∈ sources, row.1 ∈ (source.zset ks).members) ↔
        ∃ source ∈ sources, source.Lists indexes row.2) := by
    intro hjob
    refine exists_congr fun source => and_congr_right fun _ => ?_
    rw [ZSet.mem_members]
    constructor
    · rintro ⟨score, hscore⟩
      obtain ⟨job, hjob', hlists, -⟩ := (score?_zset h source row.1 score).mp hscore
      rwa [Option.some.inj (hjob.symm.trans hjob')]
    · exact fun hlists => ⟨_, (score?_zset h source row.1 _).mpr ⟨row.2, hjob, hlists, rfl⟩⟩
  constructor
  · rintro ⟨hjob, hany, hadmits, hpast⟩
    exact ⟨⟨hjob, (hlisted hjob).mp hany, hadmits⟩, hpast⟩
  · rintro ⟨⟨hjob, hany, hadmits⟩, hpast⟩
    exact ⟨hjob, (hlisted hjob).mpr hany, hadmits, hpast⟩

theorem pageSize_pos (options : ListOptions) : 1 ≤ options.pageSize := by
  unfold ListOptions.pageSize
  omega

/-- The last row of a page that is cut off. -/
theorem getLast?_take {α : Type} {xs : List α} {limit : ℕ} (hlimit : 1 ≤ limit)
    (hlong : limit < xs.length) : (xs.take limit).getLast? = xs[limit - 1]? := by
  rw [List.getLast?_eq_getElem?, List.length_take, Nat.min_eq_left hlong.le,
    List.getElem?_take_of_lt (by omega)]

/-- Whatever the route, `list` serves the page of the plain query and changes nothing. -/
theorem list_page (tonumber : String → Option ℤ) (h : Consistent indexes ks)
    (hroute : route indexes options = .ok (sources, residual)) :
    list tonumber indexes ks options =
      .ok (some (pageResult (keysetPage ks options (readCursor tonumber (options.cursor.getD ""))),
        ks)) := by
  have hr : Routed (V := V) indexes options sources residual := route_routed hroute
  obtain ⟨ks', hscript, ⟨removed, hremoved, horphans⟩, -⟩ := list_script_exact tonumber
    (·.orderValue options.field) ks sources options.descending residual (options.cursor.getD "")
    options.pageSize (hr.disjoint h) (hr.scored h) (pageSize_pos options)
  -- there are no orphans to remove
  have hnone : removed = [] := by
    apply List.eq_nil_iff_forall_not_mem.mpr
    intro r hmem
    obtain ⟨-, hmember, hgone⟩ := horphans r hmem
    obtain ⟨score, hscore⟩ := ZSet.mem_members.mp hmember
    obtain ⟨job, hjob, -⟩ := (score?_zset h r.1 r.2 score).mp hscore
    cases hgone.symm.trans hjob
  have hsame : ks' = ks := by
    rw [hremoved, hnone]
    rfl
  rw [hr.rows h, hsame] at hscript
  unfold list
  rw [hroute, Except.map]
  dsimp only
  rw [hscript, Option.map_some]
  dsimp only
  congr 3
  rw [pageResult, keysetPage, Paging.page]
  dsimp only
  congr 1
  generalize hrest : Paging.behind (Precedes options.descending)
    (rowEntry (·.orderValue options.field)) (readCursor tonumber (options.cursor.getD ""))
    (sortedMatches ks options) = rest
  have hkeyed : ∀ row ∈ rest, row.2.id = row.1 := by
    intro row hrow
    rw [← hrest] at hrow
    have hjob := (mem_sortedMatches.mp (Paging.mem_behind.mp hrow).1).1
    exact (h.sound row.1 row.2 hjob).keyed
  simp only [decide_eq_true_eq]
  split
  next hlong =>
    rw [List.getLast?_map, getLast?_take (pageSize_pos options) hlong, Option.map_map, Option.map_map]
    refine Option.map_congr fun row hrow => ?_
    rw [Function.comp_apply, Function.comp_apply, hkeyed row (List.mem_of_getElem? hrow)]
    rfl
  next => rfl

end Page

/-! ## Cursors -/

theorem notMem_repr_int (value : ℤ) : ':' ∉ (Int.repr value).toList := by
  intro h
  rcases Codes.digit_or_minus h with hdigit | hminus
  · exact absurd hdigit (by decide)
  · exact absurd hminus (by decide)

/-- A cursor reads back as its entry, whatever is in the id. -/
theorem readCursor_cursorText {tonumber : String → Option ℤ}
    (hnumber : ∀ n : ℤ, tonumber (Int.repr n) = some n) (entry : Entry) :
    readCursor tonumber (cursorText entry) = some entry := by
  obtain ⟨id, value⟩ := entry
  have htext : (cursorText (id, value)).toList = (Int.repr value).toList ++ ':' :: id.toList := by
    simp [cursorText, String.toList_append]
  have hpass : ∀ c ∈ (Int.repr value).toList, decide (c ≠ ':') = true := fun c hc =>
    decide_eq_true fun h => notMem_repr_int value (h ▸ hc)
  unfold readCursor
  rw [htext, List.dropWhile_append_of_pos hpass, List.takeWhile_append_of_pos hpass]
  simp [hnumber]

/-- The cursor a page carries reads back as the place it stands for. -/
theorem readCursor_place {tonumber : String → Option ℤ}
    (hnumber : ∀ n : ℤ, tonumber (Int.repr n) = some n) (place : Option Entry) :
    readCursor tonumber ((place.map cursorText).getD "") = place := by
  cases place with
  | none => rfl
  | some entry => exact readCursor_cursorText hnumber entry

section Follow

variable {tonumber : String → Option ℤ} {ks : Keyspace V} {options : ListOptions}
  {sources : List ListSource} {residual : ResidualFilters}

/-- A request with the cursor a page carried is answered with the next page. -/
theorem list_follow (hnumber : ∀ n : ℤ, tonumber (Int.repr n) = some n) (h : Consistent indexes ks)
    (hroute : route indexes options = .ok (sources, residual)) (place : Option Entry) :
    list tonumber indexes ks { options with cursor := place.map cursorText } =
      .ok (some (pageResult (keysetPage ks options place), ks)) := by
  have hsame : route indexes { options with cursor := place.map cursorText } = route indexes options :=
    rfl
  rw [list_page tonumber h (hsame.trans hroute)]
  dsimp only
  rw [readCursor_place hnumber]
  rfl

/-! ## Walking a keyspace that does not change -/

/-- Request pages until one carries no cursor. -/
def drainList (tonumber : String → Option ℤ) (indexes : IndexConfig) (ks : Keyspace V)
    (options : ListOptions) : ℕ → Option String → Option (List (ListPage V))
  | 0, _ => none
  | fuel + 1, cursor =>
    match list tonumber indexes ks { options with cursor } with
    | .ok (some (page, ks)) =>
      match page.cursor with
      | none => some [page]
      | some next => (drainList tonumber indexes ks options fuel (some next)).map (page :: ·)
    | _ => none

theorem drainList_eq_drain (hnumber : ∀ n : ℤ, tonumber (Int.repr n) = some n)
    (h : Consistent indexes ks) (hroute : route indexes options = .ok (sources, residual)) (fuel : ℕ)
    (place : Option Entry) :
    drainList tonumber indexes ks options fuel (place.map cursorText) =
      (Paging.drain (Precedes options.descending) (rowEntry (·.orderValue options.field))
        options.pageSize (sortedMatches ks options) fuel place).map (·.map pageResult) := by
  induction fuel generalizing place with
  | zero => rfl
  | succ fuel ih =>
    simp only [drainList, Paging.drain, list_follow hnumber h hroute]
    cases hnext : (keysetPage ks options place).next with
    | none => simp [pageResult, hnext]
    | some next =>
      have hrest := ih (some next)
      simp only [Option.map_some] at hrest
      simp only [pageResult, hnext, Option.map_some, hrest, Option.map_map]
      congr 1
      funext pages
      simp [pageResult, hnext]

/-- The pages serve the matching jobs, each once and in order, in as few pages as the limit allows. -/
theorem drainList_exact (hnumber : ∀ n : ℤ, tonumber (Int.repr n) = some n)
    (h : Consistent indexes ks) (hroute : route indexes options = .ok (sources, residual)) :
    let count := max 1 ((sortedMatches ks options).length ⌈/⌉ options.pageSize)
    ∃ pages, drainList tonumber indexes ks options count none = some pages ∧ pages.length = count ∧
      pages.flatMap (·.items) = (sortedMatches ks options).map (·.2) := by
  obtain ⟨pages, hdrain, hcount, hserved⟩ :=
    Paging.drain_exact (sortedMatches_sorted ks options) (pageSize_pos options) none
  rw [Paging.behind_none] at hdrain hcount hserved
  have hfollow := drainList_eq_drain hnumber h hroute
    (max 1 ((sortedMatches ks options).length ⌈/⌉ options.pageSize)) none
  rw [Option.map_none, hdrain, Option.map_some] at hfollow
  refine ⟨pages.map pageResult, hfollow, by rw [List.length_map, hcount], ?_⟩
  rw [← hserved, List.map_flatMap, List.flatMap_map]
  rfl

end Follow

/-! ## Walking a keyspace that changes between the requests -/

/-- A client that follows the cursors while the scripts go on. -/
structure Walk (V : Type) where
  ks : Keyspace V
  cursor : Option String
  ended : Bool
  served : List (JobHash V)

def Walk.start (ks : Keyspace V) : Walk V := ⟨ks, none, false, []⟩

inductive WalkEvent (V : Type)
  | call (script : Script V) (now : ℤ)
  | page

/-- The walk ends with the page that carries no cursor. -/
inductive WalkStep (tonumber : String → Option ℤ) (indexes : IndexConfig) (options : ListOptions) :
    Walk V → WalkEvent V → Walk V → Prop
  | call {w : Walk V} {script : Script V} {now : ℤ} {ks' : Keyspace V}
      (hcall : Calls indexes w.ks (script, now) ks') :
      WalkStep tonumber indexes options w (.call script now) { w with ks := ks' }
  | page {w : Walk V} {page : ListPage V} {ks' : Keyspace V} (hopen : w.ended = false)
      (hpage : list tonumber indexes w.ks { options with cursor := w.cursor } = .ok (some (page, ks'))) :
      WalkStep tonumber indexes options w .page
        ⟨ks', page.cursor, page.cursor.isNone, w.served ++ page.items⟩

/-- What a job is listed by. -/
def JobHash.entry (options : ListOptions) (job : JobHash V) : Entry :=
  (job.id, job.orderValue options.field)

/-- The job matches, and is listed at this place. -/
def ListedAt (options : ListOptions) (entry : Entry) (ks : Keyspace V) : Prop :=
  ∃ job, ks.jobs.get? entry.1 = some job ∧ listAdmits options job = true ∧ job.entry options = entry

def entries (ks : Keyspace V) (options : ListOptions) : List Entry :=
  (sortedMatches ks options).map (rowEntry (·.orderValue options.field))

/-- The walk has come as far as the trail says. -/
structure Walk.Follows (indexes : IndexConfig) (options : ListOptions) (w : Walk V)
    (t : Paging.Trail Entry) : Prop where
  sound : Sound indexes w.ks
  cursor : w.cursor = t.place.map cursorText
  ended : w.ended = t.ended
  served : w.served.map (·.entry options) = t.served

section Walk

variable {tonumber : String → Option ℤ} {options : ListOptions} {sources : List ListSource}
  {residual : ResidualFilters} {w w' : Walk V} {t : Paging.Trail Entry}

theorem entries_sorted (ks : Keyspace V) (options : ListOptions) :
    Paging.Sorted (Precedes options.descending) id (entries ks options) :=
  List.pairwise_map.mpr (sortedMatches_sorted ks options)

theorem ListedAt.mem_entries {ks : Keyspace V} {entry : Entry} (h : ListedAt options entry ks) :
    entry ∈ entries ks options := by
  obtain ⟨job, hjob, hadmits, rfl⟩ := h
  exact List.mem_map.mpr ⟨(job.id, job), mem_sortedMatches.mpr ⟨hjob, hadmits⟩, rfl⟩

theorem Walk.Follows.call (h : w.Follows indexes options t) {script : Script V} {now : ℤ}
    {ks' : Keyspace V} (hcall : Calls indexes w.ks (script, now) ks') :
    Walk.Follows indexes options { w with ks := ks' } t :=
  ⟨hcall.sound h.sound, h.cursor, h.ended, h.served⟩

/-- A page of the walk is a turn of the trail. -/
theorem Walk.Follows.page (hnumber : ∀ n : ℤ, tonumber (Int.repr n) = some n)
    (hroute : route indexes options = .ok (sources, residual)) (h : w.Follows indexes options t)
    {page : ListPage V} {ks' : Keyspace V}
    (hpage : list tonumber indexes w.ks { options with cursor := w.cursor } = .ok (some (page, ks'))) :
    Walk.Follows indexes options ⟨ks', page.cursor, page.cursor.isNone, w.served ++ page.items⟩
      (t.turn (Precedes options.descending) options.pageSize (entries w.ks options)) := by
  have hconsistent := h.sound.consistent
  rw [h.cursor, list_follow hnumber hconsistent hroute] at hpage
  simp only [Except.ok.injEq, Option.some.injEq, Prod.mk.injEq] at hpage
  obtain ⟨rfl, rfl⟩ := hpage
  obtain ⟨hitems, hnext⟩ := Paging.page_keys (Precedes options.descending) options.pageSize
    (rowEntry (·.orderValue options.field)) (sortedMatches w.ks options) t.place
  refine ⟨h.sound, ?_, ?_, ?_⟩
  · rw [Paging.Trail.turn, entries, hnext]
    rfl
  · rw [Paging.Trail.turn, entries, hnext, pageResult, Option.isNone_map]
  · rw [Paging.Trail.turn, entries, hitems, List.map_append, h.served, pageResult, List.map_map]
    congr 1
    apply List.map_congr_left
    intro row hrow
    have hjob := (mem_sortedMatches.mp (Paging.mem_page hrow).1).1
    exact Prod.ext (hconsistent.sound row.1 row.2 hjob).keyed rfl

theorem WalkStep.follows (hnumber : ∀ n : ℤ, tonumber (Int.repr n) = some n)
    (hroute : route indexes options = .ok (sources, residual)) {event : WalkEvent V}
    (hs : WalkStep tonumber indexes options w event w') (h : w.Follows indexes options t) :
    w'.Follows indexes options t ∨ t.ended = false ∧ w'.Follows indexes options
      (t.turn (Precedes options.descending) options.pageSize (entries w.ks options)) := by
  cases hs with
  | call hcall => exact .inl (h.call hcall)
  | page hopen hpage => exact .inr ⟨h.ended.symm.trans hopen, h.page hnumber hroute hpage⟩

instance (desc : Bool) : IsStrictTotalOrder Entry (Precedes desc) where
  trichotomous a b hab hba :=
    ((precedes_trichotomy desc a b).resolve_left hab).resolve_right hba

/-- What holds of every walk from `ks`, whatever scripts run between its requests: every request is
answered, the rows are served in order, so none twice, and a job that matches at one place all along
was served once when the walk has ended. -/
structure ExactWalks (tonumber : String → Option ℤ) (indexes : IndexConfig) (ks : Keyspace V)
    (options : ListOptions) : Prop where
  answered : ∀ es w, Run (WalkStep tonumber indexes options) (Walk.start ks) es w → w.ended = false →
    ∃ page : ListPage V, WalkStep tonumber indexes options w .page
      ⟨w.ks, page.cursor, page.cursor.isNone, w.served ++ page.items⟩
  ordered : ∀ es w, Run (WalkStep tonumber indexes options) (Walk.start ks) es w →
    (w.served.map (·.entry options)).Pairwise (Precedes options.descending)
  complete : ∀ es w entry, Run (WalkStep tonumber indexes options) (Walk.start ks) es w →
    w.ended = true → Always (WalkStep tonumber indexes options) (Walk.start ks) es w
      (fun w => ListedAt options entry w.ks) → (w.served.map (·.entry options)).count entry = 1

theorem exactWalks (hnumber : ∀ n : ℤ, tonumber (Int.repr n) = some n) {ks : Keyspace V}
    (h : Sound indexes ks) (hroute : route indexes options = .ok (sources, residual)) :
    ExactWalks tonumber indexes ks options := by
  have hstart : (Walk.start ks).Follows indexes options .start := ⟨h, rfl, rfl, rfl⟩
  -- a walk follows a trail, and the trail is in order
  have hfollows : ∀ es w, Run (WalkStep tonumber indexes options) (Walk.start ks) es w →
      ∃ t, w.Follows indexes options t ∧ t.Ordered (Precedes options.descending) := by
    intro es w hr
    refine hr.preserves (I := fun w => ∃ t, w.Follows indexes options t ∧
      t.Ordered (Precedes options.descending)) ?_ ⟨.start, hstart, Paging.Trail.start_ordered _⟩
    rintro w event w' hs ⟨t, hf, ho⟩
    rcases hs.follows hnumber hroute hf with hf' | ⟨hopen, hf'⟩
    · exact ⟨t, hf', ho⟩
    · exact ⟨_, hf', ho.turn (entries_sorted w.ks options) (pageSize_pos options) hopen⟩
  refine ⟨fun es w hr hopen => ?_, fun es w hr => ?_, fun es w entry hr hended hall => ?_⟩
  · obtain ⟨t, hf, -⟩ := hfollows es w hr
    refine ⟨pageResult (keysetPage w.ks options t.place), .page hopen ?_⟩
    rw [hf.cursor]
    exact list_follow hnumber hf.sound.consistent hroute t.place
  · obtain ⟨t, hf, ho⟩ := hfollows es w hr
    rw [hf.served]
    exact ho.sorted
  · let C : Walk V → Prop := fun w => ∃ t, w.Follows indexes options t ∧
      t.Ordered (Precedes options.descending) ∧ t.Reaches (Precedes options.descending) entry
    have hsafe := hall.eachStep (P := fun w _ => ListedAt options entry w.ks) fun _ _ _ _ h _ => h
    have hend : C w := by
      refine hsafe.always (C := C) ?_ ?_ es [] w (by simp) hr (.refl _)
      · rintro w event w' hs hlisted ⟨t, hf, ho, hreaches⟩
        rcases hs.follows hnumber hroute hf with hf' | ⟨hopen, hf'⟩
        · exact ⟨t, hf', ho, hreaches⟩
        · have hsorted := entries_sorted w.ks options
          exact ⟨_, hf', ho.turn hsorted (pageSize_pos options) hopen,
            hreaches.turn hsorted (pageSize_pos options) hlisted.mem_entries⟩
      · exact ⟨.start, hstart, Paging.Trail.start_ordered _, Paging.Trail.start_reaches _ entry⟩
    obtain ⟨t, hf, ho, hserved | ⟨hopen, -⟩⟩ := hend
    · rw [hf.served]
      refine List.count_eq_one_of_mem ?_ hserved
      refine ho.sorted.imp fun {a b} hab heq => ?_
      subst heq
      exact precedes_irrefl options.descending _ hab
    · cases hopen.symm.trans (hf.ended.symm.trans hended)

end Walk

/-- In every reachable keyspace the cursors of a query that has a route lead through the matching jobs
exactly, also while scripts run between the requests. -/
theorem reachable_list_exact {tonumber : String → Option ℤ} {ks : Keyspace V} {options : ListOptions}
    {sources : List ListSource} {residual : ResidualFilters}
    (hnumber : ∀ n : ℤ, tonumber (Int.repr n) = some n)
    (h : Reachable Keyspace.Fresh (Calls indexes) ks)
    (hroute : route indexes options = .ok (sources, residual)) :
    (let count := max 1 ((sortedMatches ks options).length ⌈/⌉ options.pageSize)
      ∃ pages, drainList tonumber indexes ks options count none = some pages ∧ pages.length = count ∧
        pages.flatMap (·.items) = (sortedMatches ks options).map (·.2)) ∧
      ExactWalks tonumber indexes ks options :=
  ⟨drainList_exact hnumber (reachable_consistent h) hroute,
    exactWalks hnumber (reachable_sound h) hroute⟩

theorem mailRun_list_exact :
    let ks := Keyspace.empty.runs ⟨true, true⟩ mailRun
    let options : ListOptions := { name := some "mail", states := some [.waiting], limit := some 1 }
    (let count := max 1 ((sortedMatches ks options).length ⌈/⌉ options.pageSize)
      ∃ pages, drainList String.toInt? ⟨true, true⟩ ks options count none = some pages ∧
        pages.length = count ∧
        pages.flatMap (·.items) = (sortedMatches ks options).map (·.2)) ∧
      ExactWalks String.toInt? ⟨true, true⟩ ks options :=
  reachable_list_exact Int.toInt?_repr reachable_mailRun rfl

end EffectMq.Redis
