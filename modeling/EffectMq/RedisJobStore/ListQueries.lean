import Mathlib.Algebra.Order.BigOperators.Group.List
import EffectMq.RedisJobStore.List

/-! # The Redis driver: list

The page of the `list` script is that of the naive query over the hashes, whatever orphans its sources
hold, and it removes orphans only.
-/

namespace EffectMq.Redis
set_option autoImplicit false
set_option maxHeartbeats 250000

variable {V : Type}

/-! ## The naive query -/

/-- What a row is listed by. -/
def rowEntry (value : JobHash V → ℤ) (row : JobId × JobHash V) : Entry := (row.1, value row.2)

def NotAfter {α : Type} (desc : Bool) (entry : α → Entry) (a b : α) : Prop :=
  ¬ Precedes desc (entry b) (entry a)

instance {α : Type} (desc : Bool) (entry : α → Entry) : DecidableRel (NotAfter desc entry) :=
  fun _ _ => inferInstanceAs (Decidable (¬ _))

/-- The jobs that exist, are listed in one of the sources, match and lie past the cursor, in order. -/
def matchingRows (value : JobHash V → ℤ) (ks : Keyspace V) (sources : List ListSource) (desc : Bool)
    (filters : ResidualFilters) (cursor : Option Entry) : List (JobId × JobHash V) :=
  (ks.jobs.entries.filter fun row =>
      sources.any (fun source => decide (row.1 ∈ (source.zset ks).members)) &&
        filters.admits row.2 && pastCursor desc cursor (rowEntry value row)).insertionSort
    (NotAfter desc (rowEntry value))

/-- The score of a member whose hash exists is the hash's order value. -/
def ScoredBy (value : JobHash V → ℤ) (ks : Keyspace V) (sources : List ListSource) : Prop :=
  ∀ source ∈ sources, ∀ id score job,
    (source.zset ks).score? id = some score → ks.jobs.get? id = some job → value job = score

/-! ## Sorting -/

section Sorting

variable {α : Type} {desc : Bool} {entry : α → Entry}

instance : Std.Total (NotAfter desc entry) where
  total a b := by
    by_cases h : Precedes desc (entry b) (entry a)
    · exact .inr fun h' => precedes_irrefl desc _ (precedes_trans desc _ _ _ h h')
    · exact .inl h

instance : IsTrans α (NotAfter desc entry) where
  trans a b c hab hbc hca := by
    rcases precedes_trichotomy desc (entry b) (entry c) with h | h | h
    · exact hab (precedes_trans desc _ _ _ h hca)
    · exact hab (h ▸ hca)
    · exact hbc h

/-- Entries of their own are sorted strictly. -/
theorem sorted_insertionSort {xs : List α} (h : (xs.map entry).Nodup) :
    (xs.insertionSort (NotAfter desc entry)).Pairwise fun a b => Precedes desc (entry a) (entry b) := by
  have hinj : ∀ a ∈ xs, ∀ b ∈ xs, entry a = entry b → a = b := List.inj_on_of_nodup_map h
  apply pairwise_insertionSort_of_ne h.of_map
  intro a ha b hb hne hle
  rcases precedes_trichotomy desc (entry a) (entry b) with hlt | heq | hgt
  · exact hlt
  · exact absurd (hinj a ha b hb heq) hne
  · exact absurd hgt hle

end Sorting

/-! ## All entries of the sources -/

/-- What the sources hold from the cursor's score on, as one sorted list. -/
def allEntries (ks : Keyspace V) (sources : List ListSource) (desc : Bool) (cursor : Option Entry) :
    List Entry :=
  (sources.flatMap fun source => bounded (source.zset ks) desc cursor).insertionSort (NotAfter desc id)

section Entries

variable {ks : Keyspace V} {sources : List ListSource} {desc : Bool} {cursor : Option Entry}

theorem mem_allEntries {e : Entry} :
    e ∈ allEntries ks sources desc cursor ↔
      ∃ source ∈ sources, e ∈ bounded (source.zset ks) desc cursor := by
  rw [allEntries, List.mem_insertionSort, List.mem_flatMap]

theorem nodup_flatMap_bounded (h : DisjointSources ks sources) :
    (sources.flatMap fun source => bounded (source.zset ks) desc cursor).Nodup := by
  rw [List.nodup_flatMap]
  refine ⟨fun source _ => (bounded_nodup _ desc cursor).of_map, h.imp fun {a b} hab => ?_⟩
  intro e ha hb
  have hmem : ∀ source : ListSource, e ∈ bounded (source.zset ks) desc cursor →
      e.1 ∈ (source.zset ks).members := fun source he =>
    ZSet.mem_members.mpr ⟨_, (mem_bounded.mp he).1⟩
  exact hab e.1 (hmem a ha) (hmem b hb)

theorem allEntries_sorted (h : DisjointSources ks sources) :
    (allEntries ks sources desc cursor).Pairwise (Precedes desc) := by
  apply sorted_insertionSort
  simpa using nodup_flatMap_bounded h

/-- Before the first turn. -/
theorem merging_start (h : DisjointSources ks sources) :
    Merging desc cursor ks (sources.map Iter.start) (allEntries ks sources desc cursor) := by
  refine ⟨⟨allEntries_sorted h, ?_⟩, ?_, ?_⟩
  · have hrest : (sources.map Iter.start).map (Iter.rest ks desc cursor) =
        sources.map fun source => bounded (source.zset ks) desc cursor := by
      rw [List.map_map]
      rfl
    rw [hrest, ← List.flatMap_def]
    exact List.perm_insertionSort _ _
  · rw [List.forall_mem_map]
    exact fun source _ => ⟨List.nil_prefix, fun hexhausted => by cases hexhausted⟩
  · rw [List.map_map]
    have hkey : (fun it : Iter => it.key) ∘ Iter.start = id := rfl
    rw [hkey, List.map_id]
    exact h

/-- Each turn takes an entry, so there are turns enough. -/
theorem length_allEntries_le :
    (allEntries ks sources desc cursor).length ≤
      (sources.map fun source => (source.zset ks).card).sum := by
  rw [allEntries, List.length_insertionSort, List.length_flatMap]
  apply List.sum_le_sum
  intro source _
  have hlength : (source.zset ks).withScores.length = (source.zset ks).card := by
    rw [ZSet.withScores, List.length_map, ZSet.card]
  rw [← hlength]
  unfold bounded
  split
  · rw [List.length_reverse]
    exact List.length_filter_le _ _
  · exact List.length_filter_le _ _

/-! ## Entries and rows -/

variable {value : JobHash V → ℤ} {filters : ResidualFilters}

/-- Entries past the cursor are in the range. -/
theorem mem_bounded_of_pastCursor {z : ZSet ℤ JobId} {e : Entry} (h : z.score? e.1 = some e.2)
    (hpast : pastCursor desc cursor e = true) : e ∈ bounded z desc cursor := by
  rw [mem_bounded]
  refine ⟨h, fun c hc => ?_⟩
  obtain rfl : cursor = some c := hc
  have hlt : Precedes desc c e := of_decide_eq_true hpast
  unfold Precedes at hlt
  cases desc with
  | false => rcases hlt with hlt | hlt <;> simp <;> omega
  | true => rcases hlt with hlt | hlt <;> simp <;> omega

theorem mem_matchingRows {row : JobId × JobHash V} :
    row ∈ matchingRows value ks sources desc filters cursor ↔
      ks.jobs.get? row.1 = some row.2 ∧ (∃ source ∈ sources, row.1 ∈ (source.zset ks).members) ∧
        filters.admits row.2 = true ∧ pastCursor desc cursor (rowEntry value row) = true := by
  rw [matchingRows, List.mem_insertionSort, List.mem_filter, JsMap.get?_eq_some]
  simp [and_assoc]

theorem matchingRows_sorted :
    ((matchingRows value ks sources desc filters cursor).map (rowEntry value)).Pairwise
      (Precedes desc) := by
  rw [List.pairwise_map]
  apply sorted_insertionSort
  have hnodup : (ks.jobs.entries.map Prod.fst).Nodup := ks.jobs.nodup
  have hfst : ∀ rows : List (JobId × JobHash V), rows.map Prod.fst =
      (rows.map (rowEntry value)).map Prod.fst := fun rows => by
    rw [List.map_map]
    rfl
  apply List.Nodup.of_map Prod.fst
  rw [← hfst]
  exact hnodup.sublist (List.filter_sublist.map _)

/-- The entries that count are those of the naive query's rows. -/
theorem listable_allEntries (hdisjoint : DisjointSources ks sources)
    (hscored : ScoredBy value ks sources) :
    (allEntries ks sources desc cursor).filter (listable ks.jobs desc filters cursor) =
      (matchingRows value ks sources desc filters cursor).map (rowEntry value) := by
  have hleft : ((allEntries ks sources desc cursor).filter
      (listable ks.jobs desc filters cursor)).Pairwise (Precedes desc) :=
    (allEntries_sorted hdisjoint).sublist List.filter_sublist
  have hright : ((matchingRows value ks sources desc filters cursor).map (rowEntry value)).Pairwise
      (Precedes desc) := matchingRows_sorted
  have hnodup : ∀ {es : List Entry}, es.Pairwise (Precedes desc) → es.Nodup := fun h =>
    h.imp fun hab heq => by
      subst heq
      exact precedes_irrefl desc _ hab
  have hasymm : ∀ a b, Precedes desc a b → Precedes desc b a → a = b := fun a b h h' =>
    absurd (precedes_trans desc _ _ _ h h') (precedes_irrefl desc a)
  apply List.Perm.eq_of_pairwise (fun a b _ _ => hasymm a b) hleft hright
  rw [List.perm_ext_iff_of_nodup (hnodup hleft) (hnodup hright)]
  intro e
  rw [List.mem_filter, mem_allEntries, listable, Bool.and_eq_true, List.mem_map]
  constructor
  · rintro ⟨⟨source, hsource, he⟩, hpast, hany⟩
    obtain ⟨job, hjob, hadmits⟩ := (Option.any_eq_true ..).mp hany
    have hscore := (mem_bounded.mp he).1
    have hentry : rowEntry value (e.1, job) = e :=
      Prod.ext rfl (hscored source hsource e.1 e.2 job hscore hjob)
    refine ⟨(e.1, job), mem_matchingRows.mpr ⟨hjob, ⟨source, hsource, ?_⟩, hadmits, ?_⟩, hentry⟩
    · exact ZSet.mem_members.mpr ⟨_, hscore⟩
    · rw [hentry]
      exact hpast
  · rintro ⟨row, hrow, rfl⟩
    obtain ⟨hjob, ⟨source, hsource, hmember⟩, hadmits, hpast⟩ := mem_matchingRows.mp hrow
    obtain ⟨score, hscore⟩ := ZSet.mem_members.mp hmember
    have hvalue : value row.2 = score := hscored source hsource row.1 score row.2 hscore hjob
    refine ⟨⟨source, hsource, mem_bounded_of_pastCursor ?_ hpast⟩, hpast, ?_⟩
    · rw [rowEntry, hvalue]
      exact hscore
    · rw [rowEntry, hjob]
      exact hadmits

/-! ## The script -/

theorem filterMap_rowEntry {jobs : JsMap JobId (JobHash V)} {rows : List (JobId × JobHash V)}
    (h : ∀ row ∈ rows, jobs.get? row.1 = some row.2) :
    ((rows.map (rowEntry value)).filterMap fun entry => jobs.get? entry.1) = rows.map (·.2) := by
  induction rows with
  | nil => rfl
  | cons row rows ih =>
    have hrow : jobs.get? (rowEntry value row).1 = some row.2 := h row List.mem_cons_self
    rw [List.map_cons, List.filterMap_cons, hrow, ih fun r hr => h r (List.mem_cons_of_mem _ hr)]
    rfl

/-- The scan comes to this entry: the first match too many does not precede it. -/
def Reached (value : JobHash V → ℤ) (desc : Bool) (rows : List (JobId × JobHash V)) (limit : ℕ)
    (entry : Entry) : Prop :=
  ∀ row ∈ rows[limit]?, ¬ Precedes desc (rowEntry value row) entry

/-- The entries before the first match too many have been visited. -/
theorem mem_visited {rows : List (JobId × JobHash V)} {entries visited rest front : List Entry}
    {last entry : Entry} {p : Entry → Bool} {limit : ℕ} (hsorted : entries.Pairwise (Precedes desc))
    (hrows : entries.filter p = rows.map (rowEntry value)) (hsplit : entries = visited ++ rest)
    (hvisited : visited = front ++ [last]) (hlast : p last = true)
    (hcount : (front.filter p).length = limit) (hentry : entry ∈ entries)
    (hreached : Reached value desc rows limit entry) : entry ∈ visited := by
  have hrow : ∃ row, rows[limit]? = some row ∧ rowEntry value row = last := by
    have hget : (rows.map (rowEntry value))[limit]? = some last := by
      rw [← hrows, hsplit, hvisited, List.append_assoc, List.filter_append, ← hcount]
      simp [hlast]
    rw [List.getElem?_map, Option.map_eq_some_iff] at hget
    exact hget
  obtain ⟨row, hrow, rfl⟩ := hrow
  rw [hsplit] at hentry hsorted
  rcases List.mem_append.mp hentry with hentry | hentry
  · exact hentry
  · have hbefore := (List.pairwise_append.mp hsorted).2.2 (rowEntry value row)
      (by rw [hvisited]; simp) entry hentry
    exact absurd hbefore (hreached row hrow)

/-- The page of the naive query, and what the script removes on the way. -/
theorem list_script_exact (tonumber : String → Option ℤ) (value : JobHash V → ℤ) (ks : Keyspace V)
    (sources : List ListSource) (desc : Bool) (filters : ResidualFilters) (text : String) (limit : ℕ)
    (hdisjoint : DisjointSources ks sources) (hscored : ScoredBy value ks sources)
    (hlimit : 1 ≤ limit) :
    let cursor := readCursor tonumber text
    let rows := matchingRows value ks sources desc filters cursor
    ∃ ks', listScript tonumber ks sources desc filters text limit =
        some (⟨(rows.take limit).map (·.2), decide (limit < rows.length)⟩, ks') ∧
      (∃ removed, ks' = removeAll removed ks ∧ ∀ r ∈ removed,
        r.1 ∈ sources ∧ r.2 ∈ (r.1.zset ks).members ∧ ks.jobs.get? r.2 = none) ∧
      ∀ source ∈ sources, ∀ id score, (source.zset ks).score? id = some score →
        ks.jobs.get? id = none → pastCursor desc cursor (id, score) = true →
        Reached value desc rows limit (id, score) → id ∉ (source.zset ks').members := by
  intro cursor rows
  have hkeys : (sources.map Iter.start).map (·.key) = sources := by
    rw [List.map_map]
    exact List.map_id sources
  have hstart : Merging desc cursor ks (sources.map Iter.start) (allEntries ks sources desc cursor) :=
    merging_start hdisjoint
  let start : ListState V := ⟨ks, sources.map Iter.start, [], false⟩
  obtain ⟨s', hrun, hlisted⟩ : ∃ s', listLoop desc filters cursor limit _ start = some s' ∧
      Listed desc filters cursor limit (start.iters.map (·.key)) start s'
        (allEntries ks sources desc cursor) :=
    listLoop_spec hstart rfl (Nat.zero_le limit) (Nat.lt_succ_of_le length_allEntries_le)
  rw [hkeys] at hlisted
  have hrows : (allEntries ks sources desc cursor).filter (listable ks.jobs desc filters cursor) =
      rows.map (rowEntry value) := listable_allEntries hdisjoint hscored
  have hitems : s'.items = (rows.take limit).map (·.2) := by
    rw [hlisted.items, hrows, ← List.map_take, filterMap_rowEntry]
    · simp [start]
    · exact fun row hrow => (mem_matchingRows.mp (List.mem_of_mem_take hrow)).1
  have hmore : s'.more = decide (limit < rows.length) := by
    rw [hlisted.more, hrows, List.length_map]
    rfl
  refine ⟨s'.ks, ?_, hlisted.removed, ?_⟩
  · rw [listScript, hrun, Option.map_some, hitems, hmore]
    cases hcut : rows with
    | nil => simp
    | cons row tail =>
      obtain ⟨limit, rfl⟩ := Nat.exists_eq_add_of_le' hlimit
      simp
  · intro source hsource id score hscore hnone hpast hreached
    obtain ⟨visited, rest, hsplit, hdone, hstop, hgone⟩ := hlisted.visited
    have hentry : (id, score) ∈ allEntries ks sources desc cursor :=
      mem_allEntries.mpr ⟨source, hsource, mem_bounded_of_pastCursor hscore hpast⟩
    have hvisited : (id, score) ∈ visited := by
      cases hcase : s'.more with
      | false =>
        rw [hsplit, hdone hcase, List.append_nil] at hentry
        exact hentry
      | true =>
        obtain ⟨front, last, hfront, hlast, hcount⟩ := hstop hcase
        exact mem_visited (allEntries_sorted hdisjoint) hrows hsplit hfront hlast hcount hentry hreached
    exact hgone _ hvisited hpast hnone source hsource

end Entries

/-- A job, and a newer id without a hash. -/
def orphanedKeyspace : Keyspace Unit :=
  { Keyspace.empty with
    jobs := .single "job" (jobHash "job" (.plain "job" "mail" "default" ()) "" 5 1)
    all := ((∅ : ZSet ℤ JobId).add "job" 5).add "gone" 7 }

theorem list_script_exact_orphaned :
    let rows := matchingRows (·.enqueuedAt) orphanedKeyspace [.all] true {} none
    ∃ ks', listScript String.toInt? orphanedKeyspace [.all] true {} "" 1 =
        some (⟨(rows.take 1).map (·.2), decide (1 < rows.length)⟩, ks') ∧
      (∃ removed, ks' = removeAll removed orphanedKeyspace ∧ ∀ r ∈ removed,
        r.1 ∈ [ListSource.all] ∧ r.2 ∈ (r.1.zset orphanedKeyspace).members ∧
          orphanedKeyspace.jobs.get? r.2 = none) ∧
      ∀ source ∈ [ListSource.all], ∀ id score,
        (source.zset orphanedKeyspace).score? id = some score →
        orphanedKeyspace.jobs.get? id = none → pastCursor true none (id, score) = true →
        Reached (·.enqueuedAt) true rows 1 (id, score) → id ∉ (source.zset ks').members := by
  apply list_script_exact String.toInt? (·.enqueuedAt) orphanedKeyspace [.all] true {} "" 1
  · exact List.pairwise_singleton ..
  · intro source hsource id score job hscore hjob
    rw [List.mem_singleton.mp hsource, ListSource.zset, orphanedKeyspace, ZSet.score?_add] at hscore
    rw [orphanedKeyspace, JsMap.get?_single] at hjob
    split at hjob
    next hid =>
      subst hid
      rw [if_neg (by decide), ZSet.score?_add, if_pos rfl] at hscore
      rw [← Option.some.inj hjob, ← Option.some.inj hscore]
      rfl
    next => cases hjob
  · exact le_rfl

/-! ## Routing -/

/-- What `list` dies with. -/
inductive ListDefect
  | orderUnsupported (orderBy : ListField) (message : String)
  | indexDisabled (index : IndexKind) (message : String)
  deriving DecidableEq

/-- The narrowest sources whose score is the requested order value; what they do not pin stays a
residual predicate. Only the order of `enqueuedAt` asks for an index that may be disabled. -/
def route (indexes : IndexConfig) (options : ListOptions) :
    Except ListDefect (List ListSource × ResidualFilters) :=
  let { queue, name, states, metadata, .. } := options
  match options.field with
  | .finishedAt =>
    let unsupported := ListDefect.orderUnsupported .finishedAt
      ("effect-mq: the Redis store serves orderBy \"finishedAt\" only with " ++
        "states ⊆ \x7bcompleted, failed, cancelled\x7d (the finished/terminal zsets carry that order)")
    match states with
    | none => .error unsupported
    | some states =>
      if states.any (fun state => !state.isTerminal) then .error unsupported
      else
        let uniqueStates := states.eraseDups
        let sources :=
          match name with
          | none => uniqueStates.map .finished
          | some name => uniqueStates.map (.terminal name)
        .ok (sources, { queue, metadata })
  | .runAt =>
    let onlyDelayed :=
      states.any fun states => !states.isEmpty && states.all fun state => decide (state = .delayed)
    match queue with
    | some queue =>
      if onlyDelayed then .ok ([.delayed queue], { name, metadata })
      else .error (.orderUnsupported .runAt runAtMessage)
    | none => .error (.orderUnsupported .runAt runAtMessage)
  | .enqueuedAt =>
    match name with
    | some name =>
      if indexes.name then .ok ([.byname name], { queue, states, metadata })
      else
        .error (.indexDisabled .name
          ("effect-mq: list(\x7b name \x7d) routes to the byname index, " ++
            "but RedisJobStoreOptions.indexes.name is disabled for this store"))
    | none =>
      match queue with
      | some queue =>
        if indexes.queue then .ok ([.byqueue queue], { states, metadata })
        else
          .error (.indexDisabled .queue
            ("effect-mq: list(\x7b queue \x7d) routes to the byqueue index, " ++
              "but RedisJobStoreOptions.indexes.queue is disabled for this store"))
      | none => .ok ([.all], { states, metadata })
where
  runAtMessage : String :=
    "effect-mq: the Redis store serves orderBy \"runAt\" only with " ++
      "states: [\"delayed\"] and a queue (the delayed:<queue> zset carries that order)"

end EffectMq.Redis
