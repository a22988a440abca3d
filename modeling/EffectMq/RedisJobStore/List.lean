import Mathlib.Data.List.Induction
import Mathlib.Data.List.Pairwise
import EffectMq.Library.Merge
import EffectMq.Library.Ranks
import EffectMq.RedisJobStore.Scripts

/-! # The list script

The `list` script merges sorted sources by `(score, id)`, each read in batches of 100 by rank while
the script itself removes orphans. `Merging` is what the iterators have yet to give, as one sorted
list; a turn of the loop takes its first entry, and `listLoop_spec` says what a whole run makes of it.
-/

namespace EffectMq.Redis
set_option autoImplicit false
set_option maxHeartbeats 250000

variable {V : Type}

/-! ## Sources -/

/-- The zsets of plain ids that a list is served from. -/
inductive ListSource
  | all
  | byname (name : String)
  | byqueue (queue : QueueName)
  | delayed (queue : QueueName)
  | finished (state : JobState)
  | terminal (name : String) (state : JobState)
  deriving DecidableEq

def ListSource.zset (ks : Keyspace V) : ListSource → ZSet ℤ JobId
  | .all => ks.all
  | .byname name => ks.byname name
  | .byqueue queue => ks.byqueue queue
  | .delayed queue => ks.delayed queue
  | .finished state => ks.finished state
  | .terminal name state => ks.terminal name state

/-- `ZREM`. -/
def ListSource.rem (ks : Keyspace V) (id : JobId) : ListSource → Keyspace V
  | .all => { ks with all := ks.all.rem id }
  | .byname name => { ks with byname := upd ks.byname name ((ks.byname name).rem id) }
  | .byqueue queue => { ks with byqueue := upd ks.byqueue queue ((ks.byqueue queue).rem id) }
  | .delayed queue => { ks with delayed := upd ks.delayed queue ((ks.delayed queue).rem id) }
  | .finished state => { ks with finished := upd ks.finished state ((ks.finished state).rem id) }
  | .terminal name state =>
    { ks with
      terminal := upd ks.terminal name
        (upd (ks.terminal name) state ((ks.terminal name state).rem id)) }

/-- A member with its score, as `WITHSCORES` replies. -/
abbrev Entry := JobId × ℤ

/-- `(score, id)` order in the requested direction; ids are compared byte by byte. -/
def Precedes (desc : Bool) (a b : Entry) : Prop :=
  if desc then b.2 < a.2 ∨ b.2 = a.2 ∧ b.1 < a.1 else a.2 < b.2 ∨ a.2 = b.2 ∧ a.1 < b.1

instance (desc : Bool) (a b : Entry) : Decidable (Precedes desc a b) := by
  unfold Precedes
  infer_instance

/-- The cursor of `<orderValue>:<id>`, split at the first `:`; a value that `tonumber` does not read is
no cursor. -/
def readCursor (tonumber : String → Option ℤ) (text : String) : Option Entry :=
  match text.toList.dropWhile (· ≠ ':') with
  | [] => none
  | _ :: id =>
    (tonumber (String.ofList (text.toList.takeWhile (· ≠ ':')))).map fun cursorAt =>
      (String.ofList id, cursorAt)

/-- The exclusive keyset cursor. -/
def pastCursor (desc : Bool) (cursor : Option Entry) (entry : Entry) : Bool :=
  cursor.all fun c => decide (Precedes desc c entry)

/-- `ZREVRANGEBYSCORE` or `ZRANGEBYSCORE` from the cursor's score on, inclusive. -/
def bounded (z : ZSet ℤ JobId) (desc : Bool) (cursor : Option Entry) : List Entry :=
  if desc then (z.withScores.filter fun e => cursor.all fun c => decide (e.2 ≤ c.2)).reverse
  else z.withScores.filter fun e => cursor.all fun c => decide (c.2 ≤ e.2)

/-! ## Filters -/

/-- The predicates the routed sources do not pin. -/
structure ResidualFilters where
  queue : Option QueueName := none
  name : Option String := none
  states : Option (List JobState) := none
  metadata : Option (List (String × String)) := none
  deriving DecidableEq

def ResidualFilters.admits (filters : ResidualFilters) (job : JobHash V) : Bool :=
  filters.queue.all (fun queue => decide (job.queue = queue)) &&
    filters.name.all (fun name => decide (job.name = name)) &&
    filters.states.all (fun states => decide (job.state ∈ states)) &&
    filters.metadata.all fun metadata =>
      metadata.all fun entry => decide (job.metadata.lookup entry.1 = some entry.2)

/-! ## The script -/

/-- One buffered iterator; `buf` is the buffer from `pos` on. `offset` counts consumed members that are
still in the zset. -/
structure Iter where
  key : ListSource
  offset : ℕ
  buf : List Entry
  exhausted : Bool

def Iter.start (key : ListSource) : Iter := ⟨key, 0, [], false⟩

/-- `head`: an empty buffer is refilled by rank. -/
def Iter.refill (ks : Keyspace V) (desc : Bool) (cursor : Option Entry) (it : Iter) : Iter :=
  match it.buf with
  | _ :: _ => it
  | [] =>
    if it.exhausted then it
    else
      let buf := ((bounded (it.key.zset ks) desc cursor).drop it.offset).take 100
      { it with buf, exhausted := buf.isEmpty }

def Iter.consume (it : Iter) : Iter := { it with buf := it.buf.tail, offset := it.offset + 1 }

/-- A removed member moves every later rank down by one. -/
def Iter.healed (it : Iter) : Iter := { it with offset := it.offset - 1 }

/-- The best head so far: the index of its iterator, the iterator's key and the head. -/
structure Best where
  index : ℕ
  key : ListSource
  entry : Entry

def better (desc : Bool) (best : Option Best) (index : ℕ) (it : Iter) : Option Best :=
  match it.buf with
  | [] => best
  | entry :: _ =>
    match best with
    | none => some ⟨index, it.key, entry⟩
    | some b => if Precedes desc entry b.entry then some ⟨index, it.key, entry⟩ else best

def bestHead (desc : Bool) (iters : List Iter) : Option Best :=
  iters.zipIdx.foldl (fun best it => better desc best it.2 it.1) none

structure ListState (V : Type) where
  ks : Keyspace V
  iters : List Iter
  items : List (JobHash V)
  more : Bool

/-- The loop over the best heads; `none` is a loop that does not end within the fuel. -/
def listLoop (desc : Bool) (filters : ResidualFilters) (cursor : Option Entry) (limit : ℕ) :
    ℕ → ListState V → Option (ListState V)
  | 0, _ => none
  | fuel + 1, s =>
    let iters := s.iters.map (Iter.refill s.ks desc cursor)
    match bestHead desc iters with
    | none => some { s with iters }
    | some best =>
      let iters := iters.modify best.index Iter.consume
      if pastCursor desc cursor best.entry then
        match s.ks.jobs.get? best.entry.1 with
        | none =>
          listLoop desc filters cursor limit fuel
            { s with
              ks := best.key.rem s.ks best.entry.1, iters := iters.modify best.index Iter.healed }
        | some job =>
          if filters.admits job then
            if limit ≤ s.items.length then some { s with iters, more := true }
            else listLoop desc filters cursor limit fuel { s with iters, items := s.items ++ [job] }
          else listLoop desc filters cursor limit fuel { s with iters }
      else listLoop desc filters cursor limit fuel { s with iters }

structure ListReply (V : Type) where
  items : List (JobHash V)
  more : Bool

/-- The `list` script; the rows are those of `HGETALL`. -/
def listScript (tonumber : String → Option ℤ) (ks : Keyspace V) (sources : List ListSource)
    (desc : Bool) (filters : ResidualFilters) (cursor : String) (limit : ℕ) :
    Option (ListReply V × Keyspace V) :=
  let fuel := (sources.map fun source => (source.zset ks).card).sum + 1
  let start : ListState V := ⟨ks, sources.map Iter.start, [], false⟩
  (listLoop desc filters (readCursor tonumber cursor) limit fuel start).map fun s =>
    (if s.items.isEmpty then ⟨[], false⟩ else ⟨s.items, s.more⟩, s.ks)

/-! ## The order -/

theorem precedes_iff {desc : Bool} {a b : Entry} :
    Precedes desc a b ↔
      if desc then toLex (b.2, b.1) < toLex (a.2, a.1) else toLex (a.2, a.1) < toLex (b.2, b.1) := by
  cases desc <;> simp [Precedes, Prod.Lex.lt_iff]

theorem precedes_trans (desc : Bool) (a b c : Entry) (h : Precedes desc a b)
    (h' : Precedes desc b c) : Precedes desc a c := by
  rw [precedes_iff] at *
  cases desc with
  | false => exact lt_trans h h'
  | true => exact lt_trans h' h

theorem precedes_irrefl (desc : Bool) (a : Entry) : ¬ Precedes desc a a := by
  rw [precedes_iff]
  cases desc <;> simp

theorem precedes_trichotomy (desc : Bool) (a b : Entry) :
    Precedes desc a b ∨ a = b ∨ Precedes desc b a := by
  have heq : toLex (a.2, a.1) = toLex (b.2, b.1) → a = b := fun h =>
    Prod.ext (congrArg (fun p => (ofLex p).2) h) (congrArg (fun p => (ofLex p).1) h)
  rw [precedes_iff, precedes_iff]
  rcases lt_trichotomy (toLex (a.2, a.1)) (toLex (b.2, b.1)) with h | h | h
  · cases desc
    · exact .inl h
    · exact .inr (.inr h)
  · exact .inr (.inl (heq h))
  · cases desc
    · exact .inr (.inr h)
    · exact .inl h

/-- A range is in the requested order. -/
theorem bounded_sorted (z : ZSet ℤ JobId) (desc : Bool) (cursor : Option Entry) :
    (bounded z desc cursor).Pairwise (Precedes desc) := by
  have hsorted : z.withScores.Pairwise (Precedes false) := by
    have hlt : z.entries.Pairwise (· < ·) := by
      have hne : z.entries.Pairwise (· ≠ ·) := z.nodup.of_map
      exact (z.sorted.and hne).imp fun h => lt_of_le_of_ne h.1 h.2
    rw [ZSet.withScores, List.pairwise_map]
    exact hlt.imp fun h => precedes_iff.mpr h
  unfold bounded
  cases desc with
  | false => exact hsorted.sublist List.filter_sublist
  | true =>
    rw [if_pos rfl, List.pairwise_reverse]
    exact (hsorted.sublist List.filter_sublist).imp fun h => precedes_iff.mpr (precedes_iff.mp h)

theorem mem_bounded {z : ZSet ℤ JobId} {desc : Bool} {cursor : Option Entry} {e : Entry} :
    e ∈ bounded z desc cursor ↔ z.score? e.1 = some e.2 ∧
      ∀ c ∈ cursor, if desc then e.2 ≤ c.2 else c.2 ≤ e.2 := by
  unfold bounded
  cases desc <;> cases cursor <;> simp [ZSet.mem_withScores]

theorem bounded_rem (z : ZSet ℤ JobId) (id : JobId) (desc : Bool) (cursor : Option Entry) :
    bounded (z.rem id) desc cursor =
      (bounded z desc cursor).filter fun e => decide (e.1 ≠ id) := by
  unfold bounded
  rw [ZSet.withScores_rem]
  cases desc with
  | false => simp [List.filter_filter, Bool.and_comm]
  | true => simp [List.filter_reverse, List.filter_filter, Bool.and_comm]

theorem bounded_nodup (z : ZSet ℤ JobId) (desc : Bool) (cursor : Option Entry) :
    ((bounded z desc cursor).map Prod.fst).Nodup := by
  have hnodup : ∀ p : Entry → Bool, ((z.withScores.filter p).map Prod.fst).Nodup := fun p =>
    z.nodup_withScores.sublist (List.filter_sublist.map _)
  unfold bounded
  cases desc with
  | false => exact hnodup _
  | true =>
    rw [if_pos rfl, List.map_reverse, List.nodup_reverse]
    exact hnodup _

/-! ## Sources under removals -/

@[simp] theorem zset_rem (key key' : ListSource) (ks : Keyspace V) (id : JobId) :
    key'.zset (key.rem ks id) = if key' = key then (key.zset ks).rem id else key'.zset ks := by
  cases key <;> cases key' <;> simp [ListSource.zset, ListSource.rem]
  all_goals split_ifs <;> simp_all

@[simp] theorem jobs_rem (key : ListSource) (ks : Keyspace V) (id : JobId) :
    (key.rem ks id).jobs = ks.jobs := by
  cases key <;> rfl

/-- No id is a member of two sources. -/
def DisjointSources (ks : Keyspace V) (keys : List ListSource) : Prop :=
  keys.Pairwise fun a b => ∀ id ∈ (a.zset ks).members, id ∉ (b.zset ks).members

theorem members_rem_subset (key key' : ListSource) (ks : Keyspace V) {id id' : JobId}
    (h : id' ∈ (key'.zset (key.rem ks id)).members) : id' ∈ (key'.zset ks).members := by
  rw [ZSet.mem_members] at h ⊢
  rw [zset_rem] at h
  split at h
  next heq =>
    subst heq
    simp only [ZSet.score?_rem] at h
    obtain ⟨t, ht⟩ := h
    split at ht
    · cases ht
    · exact ⟨t, ht⟩
  next => exact h

theorem DisjointSources.rem {ks : Keyspace V} {keys : List ListSource} (h : DisjointSources ks keys)
    (key : ListSource) (id : JobId) : DisjointSources (key.rem ks id) keys :=
  h.imp fun hab id' ha hb =>
    hab id' (members_rem_subset key _ ks ha) (members_rem_subset key _ ks hb)

/-- What is in one source stays out of the range of another, and the other is left as it is. -/
theorem bounded_other {ks : Keyspace V} {key key' : ListSource} {id : JobId}
    (h : id ∉ (key'.zset ks).members) (desc : Bool) (cursor : Option Entry) :
    bounded (key'.zset (key.rem ks id)) desc cursor = bounded (key'.zset ks) desc cursor := by
  rw [zset_rem]
  split
  next heq =>
    subst heq
    rw [ZSet.rem_of_notMem h]
  next => rfl

/-! ## Iterators -/

/-- What an iterator has still to give. -/
def Iter.rest (ks : Keyspace V) (desc : Bool) (cursor : Option Entry) (it : Iter) : List Entry :=
  (bounded (it.key.zset ks) desc cursor).drop it.offset

/-- The buffer is the next piece of what is left, and an exhausted iterator has nothing left. -/
structure Iter.Sound (ks : Keyspace V) (desc : Bool) (cursor : Option Entry) (it : Iter) : Prop where
  buffered : it.buf <+: it.rest ks desc cursor
  exhausted : it.exhausted = true → it.rest ks desc cursor = []

section Iter

variable {ks : Keyspace V} {desc : Bool} {cursor : Option Entry} {it : Iter}

@[simp] theorem Iter.refill_key : (it.refill ks desc cursor).key = it.key := by
  unfold Iter.refill
  split
  · rfl
  · split <;> rfl

@[simp] theorem Iter.refill_offset : (it.refill ks desc cursor).offset = it.offset := by
  unfold Iter.refill
  split
  · rfl
  · split <;> rfl

@[simp] theorem Iter.rest_refill :
    (it.refill ks desc cursor).rest ks desc cursor = it.rest ks desc cursor := by
  rw [Iter.rest, Iter.refill_key, Iter.refill_offset, Iter.rest]

/-- After a refill the buffer starts with the next entry there is. -/
theorem Iter.Sound.refill (h : it.Sound ks desc cursor) :
    (it.refill ks desc cursor).Sound ks desc cursor ∧
      (it.refill ks desc cursor).buf.head? = (it.rest ks desc cursor).head? := by
  have hrest : (it.refill ks desc cursor).rest ks desc cursor = it.rest ks desc cursor :=
    Iter.rest_refill
  cases hbuf : it.buf with
  | cons e buf =>
    have hsame : it.refill ks desc cursor = it := by rw [Iter.refill, hbuf]
    rw [hsame]
    refine ⟨h, ?_⟩
    obtain ⟨tail, htail⟩ := h.buffered
    rw [← htail, hbuf]
    rfl
  | nil =>
    cases hexhausted : it.exhausted with
    | true =>
      have hsame : it.refill ks desc cursor = it := by rw [Iter.refill, hbuf, if_pos hexhausted]
      rw [hsame]
      exact ⟨h, by rw [hbuf, h.exhausted hexhausted]⟩
    | false =>
      have hrefill : it.refill ks desc cursor =
          { it with
            buf := (it.rest ks desc cursor).take 100
            exhausted := ((it.rest ks desc cursor).take 100).isEmpty } := by
        rw [Iter.refill, hbuf]
        simp [hexhausted, Iter.rest]
      refine ⟨⟨?_, ?_⟩, ?_⟩
      · rw [hrest, hrefill]
        exact List.take_prefix ..
      · rw [hrest, hrefill]
        intro hempty
        rw [List.isEmpty_iff, List.take_eq_nil_iff] at hempty
        exact hempty.resolve_left (by decide)
      · rw [hrefill, List.head?_take, if_neg (by decide)]

/-- Consuming the head. -/
theorem Iter.Sound.consume (h : it.Sound ks desc cursor) {e : Entry} {buf : List Entry}
    (hbuf : it.buf = e :: buf) :
    ∃ rest, it.rest ks desc cursor = e :: rest ∧ it.consume.rest ks desc cursor = rest ∧
      it.consume.Sound ks desc cursor := by
  obtain ⟨tail, htail⟩ := h.buffered
  rw [hbuf] at htail
  have hdrop : it.consume.rest ks desc cursor = buf ++ tail := by
    have hnext : it.consume.rest ks desc cursor = (it.rest ks desc cursor).tail := by
      rw [Iter.rest, Iter.rest, List.tail_drop]
      rfl
    rw [hnext, ← htail]
    rfl
  refine ⟨buf ++ tail, htail.symm, hdrop, ⟨?_, ?_⟩⟩
  · rw [hdrop]
    exact ⟨tail, by rw [Iter.consume, hbuf]; rfl⟩
  · intro hexhausted
    have hnil := h.exhausted hexhausted
    rw [← htail] at hnil
    cases hnil

/-- Without the member at a rank, what follows it has that rank. -/
theorem drop_filter_of_drop {xs rest : List Entry} {n : ℕ} {e : Entry}
    (hnodup : (xs.map Prod.fst).Nodup) (h : xs.drop n = e :: rest) :
    (xs.filter fun e' => decide (e'.1 ≠ e.1)).drop n = rest := by
  have hsplit : xs = xs.take n ++ e :: rest := by rw [← h, List.take_append_drop]
  have hlength : (xs.take n).length = n := by
    have hlt : n < xs.length := by
      by_contra hle
      rw [List.drop_eq_nil_of_le (by omega)] at h
      cases h
    rw [List.length_take]
    omega
  generalize xs.take n = front at hsplit hlength
  subst hsplit hlength
  rw [List.map_append, List.map_cons, List.nodup_append, List.nodup_cons] at hnodup
  obtain ⟨-, ⟨hrest, -⟩, hfront⟩ := hnodup
  have hfront' : (front.filter fun e' => decide (e'.1 ≠ e.1)) = front := by
    rw [List.filter_eq_self]
    intro e' he'
    exact decide_eq_true (hfront _ (List.mem_map_of_mem he') _ List.mem_cons_self)
  have hrest' : (rest.filter fun e' => decide (e'.1 ≠ e.1)) = rest := by
    rw [List.filter_eq_self]
    intro e' he'
    exact decide_eq_true fun heq => hrest (heq ▸ List.mem_map_of_mem he')
  rw [List.filter_append, List.filter_cons, hfront', hrest']
  simp

/-- The head was an orphan and is gone: the ranks behind it are one less, and so is the offset. -/
theorem Iter.Sound.heal (h : it.Sound ks desc cursor) {e : Entry} {buf : List Entry}
    (hbuf : it.buf = e :: buf) :
    ∃ rest, it.rest ks desc cursor = e :: rest ∧
      it.consume.healed.rest (it.key.rem ks e.1) desc cursor = rest ∧
      it.consume.healed.Sound (it.key.rem ks e.1) desc cursor := by
  obtain ⟨rest, hrest, hconsumed, hsound⟩ := h.consume hbuf
  have hhealed : it.consume.healed.rest (it.key.rem ks e.1) desc cursor = rest := by
    have hrange : bounded (it.key.zset (it.key.rem ks e.1)) desc cursor =
        (bounded (it.key.zset ks) desc cursor).filter fun e' => decide (e'.1 ≠ e.1) := by
      rw [zset_rem, if_pos rfl, bounded_rem]
    have hkey : it.consume.healed.key = it.key := rfl
    have hoffset : it.consume.healed.offset = it.offset := Nat.add_sub_cancel it.offset 1
    rw [Iter.rest, hkey, hoffset, hrange]
    exact drop_filter_of_drop (bounded_nodup _ desc cursor) hrest
  refine ⟨rest, hrest, hhealed, ⟨?_, ?_⟩⟩
  · rw [hhealed, ← hconsumed]
    exact hsound.buffered
  · rw [hhealed, ← hconsumed]
    exact hsound.exhausted

/-- A removal elsewhere. -/
theorem Iter.rest_other {key : ListSource} {id : JobId} (h : id ∉ (it.key.zset ks).members) :
    it.rest (key.rem ks id) desc cursor = it.rest ks desc cursor := by
  rw [Iter.rest, bounded_other h, Iter.rest]

theorem Iter.Sound.other (h : it.Sound ks desc cursor) {key : ListSource} {id : JobId}
    (hnot : id ∉ (it.key.zset ks).members) : it.Sound (key.rem ks id) desc cursor where
  buffered := by
    rw [Iter.rest_other hnot]
    exact h.buffered
  exhausted := by
    rw [Iter.rest_other hnot]
    exact h.exhausted

theorem Iter.mem_rest {e : Entry} (h : e ∈ it.rest ks desc cursor) :
    e ∈ bounded (it.key.zset ks) desc cursor :=
  List.mem_of_mem_drop h

end Iter

/-! ## The best head -/

/-- No iterator's head precedes the best, which is a head itself. -/
def Best.Least (desc : Bool) (iters : List Iter) (best : Best) : Prop :=
  (∃ it buf, iters[best.index]? = some it ∧ it.key = best.key ∧ it.buf = best.entry :: buf) ∧
    ∀ it ∈ iters, ∀ e ∈ it.buf.head?, ¬ Precedes desc e best.entry

/-- The best so far stays the best. -/
theorem Best.Least.keep {desc : Bool} {iters : List Iter} {best : Best} (h : best.Least desc iters)
    {it : Iter} (hit : ∀ e ∈ it.buf.head?, ¬ Precedes desc e best.entry) :
    best.Least desc (iters ++ [it]) := by
  obtain ⟨⟨bestIter, buf, hget, hkey, hbuf⟩, hleast⟩ := h
  refine ⟨⟨bestIter, buf, ?_, hkey, hbuf⟩, fun it' hit' => ?_⟩
  · rw [List.getElem?_append_left (List.getElem?_eq_some_iff.mp hget).1, hget]
  · rcases List.mem_append.mp hit' with hit' | hit'
    · exact hleast it' hit'
    · rw [List.mem_singleton.mp hit']
      exact hit

/-- The last head wins. -/
theorem Best.least_last {desc : Bool} {iters : List Iter} {it : Iter} {e : Entry} {buf : List Entry}
    (hbuf : it.buf = e :: buf)
    (h : ∀ it' ∈ iters, ∀ e' ∈ it'.buf.head?, ¬ Precedes desc e' e) :
    Best.Least desc (iters ++ [it]) ⟨iters.length, it.key, e⟩ := by
  refine ⟨⟨it, buf, by simp, rfl, hbuf⟩, fun it' hit' => ?_⟩
  rcases List.mem_append.mp hit' with hit' | hit'
  · exact h it' hit'
  · rw [List.mem_singleton.mp hit', hbuf]
    intro e' he'
    obtain rfl := Option.some.inj he'
    exact precedes_irrefl desc e

/-- What a scan of the heads says. -/
def Leads (desc : Bool) (iters : List Iter) : Option Best → Prop
  | none => ∀ it ∈ iters, it.buf = []
  | some best => best.Least desc iters

theorem leads_better {desc : Bool} {iters : List Iter} {best : Option Best}
    (h : Leads desc iters best) (it : Iter) :
    Leads desc (iters ++ [it]) (better desc best iters.length it) := by
  unfold better
  cases hbuf : it.buf with
  | nil =>
    cases best with
    | none =>
      intro it' hit'
      rcases List.mem_append.mp hit' with hit' | hit'
      · exact h it' hit'
      · rw [List.mem_singleton.mp hit', hbuf]
    | some best =>
      apply Best.Least.keep h
      rw [hbuf]
      intro e he
      cases he
  | cons e buf =>
    cases best with
    | none =>
      apply Best.least_last hbuf
      intro it' hit' e' he'
      rw [h it' hit'] at he'
      cases he'
    | some best =>
      dsimp only
      split
      next hwins =>
        apply Best.least_last hbuf
        exact fun it' hit' e' he' hlt => h.2 it' hit' e' he' (precedes_trans desc _ _ _ hlt hwins)
      next hloses =>
        apply Best.Least.keep h
        rw [hbuf]
        intro e' he'
        obtain rfl := Option.some.inj he'
        exact hloses

/-- The heads are compared from the first iterator to the last. -/
theorem leads_bestHead (desc : Bool) (iters : List Iter) :
    Leads desc iters (bestHead desc iters) := by
  induction iters using List.reverseRecOn with
  | nil =>
    intro it hit
    cases hit
  | append_singleton iters it ih =>
    have hstep : bestHead desc (iters ++ [it]) = better desc (bestHead desc iters) iters.length it := by
      rw [bestHead, List.zipIdx_append, List.foldl_append]
      simp [bestHead]
    rw [hstep]
    exact leads_better ih it

/-! ## One turn of the loop -/

/-- The iterators have yet to give the entries of one sorted list. -/
structure Merging (desc : Bool) (cursor : Option Entry) (ks : Keyspace V) (iters : List Iter)
    (left : List Entry) : Prop where
  merges : Merge.Merges (Precedes desc) (iters.map (Iter.rest ks desc cursor)) left
  sound : ∀ it ∈ iters, it.Sound ks desc cursor
  disjoint : DisjointSources ks (iters.map (·.key))

section Merging

variable {desc : Bool} {cursor : Option Entry} {ks : Keyspace V} {iters : List Iter}
  {left : List Entry}

theorem Merging.refill (h : Merging desc cursor ks iters left) :
    Merging desc cursor ks (iters.map (Iter.refill ks desc cursor)) left ∧
      ∀ it ∈ iters.map (Iter.refill ks desc cursor),
        it.buf.head? = (it.rest ks desc cursor).head? := by
  refine ⟨⟨?_, ?_, ?_⟩, ?_⟩
  · rw [List.map_map]
    have hrest : Iter.rest ks desc cursor ∘ Iter.refill ks desc cursor = Iter.rest ks desc cursor :=
      funext fun _ => Iter.rest_refill
    rw [hrest]
    exact h.merges
  · rw [List.forall_mem_map]
    exact fun it hit => (h.sound it hit).refill.1
  · rw [List.map_map]
    have hkey : (fun it : Iter => it.key) ∘ Iter.refill ks desc cursor = fun it => it.key :=
      funext fun _ => Iter.refill_key
    rw [hkey]
    exact h.disjoint
  · rw [List.forall_mem_map]
    intro it hit
    rw [(h.sound it hit).refill.2, Iter.rest_refill]

/-- One iterator changes, and each other has the same to give. -/
theorem map_modify_eq_set {f : Iter → Iter} {g g' : Iter → List Entry} {i : ℕ} {it : Iter}
    {part : List Entry} (hi : iters[i]? = some it) (hpart : g' (f it) = part)
    (hother : ∀ j it', j ≠ i → iters[j]? = some it' → g' it' = g it') :
    (iters.modify i f).map g' = (iters.map g).set i part := by
  apply List.ext_getElem?
  intro j
  rw [List.getElem?_map, List.getElem?_modify, List.getElem?_set, List.getElem?_map]
  by_cases hj : i = j
  · subst hj
    obtain ⟨hlt, rfl⟩ := List.getElem?_eq_some_iff.mp hi
    simp [hlt, hpart]
  · rw [if_neg hj]
    cases hget : iters[j]? with
    | none => simp [hj]
    | some it' => simp [hj, hother j it' (Ne.symm hj) hget]

theorem map_key_modify {f : Iter → Iter} (hf : ∀ it, (f it).key = it.key) (i : ℕ) :
    (iters.modify i f).map (·.key) = iters.map (·.key) := by
  apply List.ext_getElem?
  intro j
  rw [List.getElem?_map, List.getElem?_modify, List.getElem?_map]
  cases iters[j]? with
  | none => rfl
  | some it =>
    by_cases hj : i = j <;> simp [hj, hf]

/-- An id of one source is in no other. -/
theorem DisjointSources.notMem (h : DisjointSources ks (iters.map (·.key))) {i j : ℕ} {it it' : Iter}
    (hi : iters[i]? = some it) (hj : iters[j]? = some it') (hne : j ≠ i) {id : JobId}
    (hid : id ∈ (it.key.zset ks).members) : id ∉ (it'.key.zset ks).members := by
  obtain ⟨hilt, rfl⟩ := List.getElem?_eq_some_iff.mp hi
  obtain ⟨hjlt, rfl⟩ := List.getElem?_eq_some_iff.mp hj
  have hpair := List.pairwise_iff_getElem.mp h
  rcases Nat.lt_or_gt_of_ne hne with hlt | hlt
  · intro hid'
    have := hpair j i (by simpa using hjlt) (by simpa using hilt) hlt id (by simpa using hid')
    exact this (by simpa using hid)
  · have := hpair i j (by simpa using hilt) (by simpa using hjlt) hlt id (by simpa using hid)
    simpa using this

theorem DisjointSources.notMem_key {keys : List ListSource} (h : DisjointSources ks keys)
    {key : ListSource} (hkey : key ∈ keys) {id : JobId} (hid : id ∈ (key.zset ks).members) :
    ∀ key' ∈ keys, key' ≠ key → id ∉ (key'.zset ks).members := by
  intro key' hkey' hne hid'
  have hsymm : Std.Symm fun a b : ListSource => ∀ id ∈ (a.zset ks).members, id ∉ (b.zset ks).members :=
    ⟨fun a b hab id hb ha => hab id ha hb⟩
  exact List.Pairwise.forall h hkey hkey' (Ne.symm hne) id hid hid'

/-- A loop that finds no head has given everything. -/
theorem Merging.done (h : Merging desc cursor ks iters left)
    (hheads : ∀ it ∈ iters, it.buf.head? = (it.rest ks desc cursor).head?)
    (hempty : ∀ it ∈ iters, it.buf = []) : left = [] := by
  apply h.merges.nil_of
  rw [List.forall_mem_map]
  intro it hit
  have hhead := hheads it hit
  rw [hempty it hit] at hhead
  exact List.head?_eq_none_iff.mp hhead.symm

variable {best : Best}

/-- The best head is the next entry of the merge; what one iterator gives, it no longer has. -/
theorem Merging.pop (h : Merging desc cursor ks iters left)
    (hheads : ∀ it ∈ iters, it.buf.head? = (it.rest ks desc cursor).head?)
    (hbest : best.Least desc iters) :
    ∃ it buf rest left', iters[best.index]? = some it ∧ it.key = best.key ∧
      it.buf = best.entry :: buf ∧ it.rest ks desc cursor = best.entry :: rest ∧
      left = best.entry :: left' ∧
      Merge.Merges (Precedes desc) ((iters.map (Iter.rest ks desc cursor)).set best.index rest)
        left' := by
  obtain ⟨⟨it, buf, hget, hkey, hbuf⟩, hleast⟩ := hbest
  have hit : it ∈ iters := List.mem_of_getElem? hget
  obtain ⟨rest, hrest, -, -⟩ := (h.sound it hit).consume hbuf
  have hpart : (iters.map (Iter.rest ks desc cursor))[best.index]? = some (best.entry :: rest) := by
    rw [List.getElem?_map, hget, Option.map_some, hrest]
  obtain ⟨left', hleft, hmerges⟩ := h.merges.pop (precedes_trans desc)
    (by
      rw [List.forall_mem_map]
      exact fun it _ => (bounded_sorted _ desc cursor).sublist (List.drop_sublist _ _))
    hpart
    (by
      rw [List.forall_mem_map]
      intro it' hit'
      rw [← hheads it' hit']
      exact hleast it' hit')
  exact ⟨it, buf, rest, left', hget, hkey, hbuf, hrest, hleft, hmerges⟩

theorem mem_modify {f : Iter → Iter} {i : ℕ} {it' : Iter} (h : it' ∈ iters.modify i f) :
    (∃ it, iters[i]? = some it ∧ it' = f it) ∨ ∃ j, j ≠ i ∧ iters[j]? = some it' := by
  obtain ⟨j, hj⟩ := List.mem_iff_getElem?.mp h
  rw [List.getElem?_modify] at hj
  obtain ⟨it, hget, hit⟩ := Option.map_eq_some_iff.mp hj
  by_cases hij : i = j
  · subst hij
    exact .inl ⟨it, hget, by simpa using hit.symm⟩
  · rw [if_neg hij] at hit
    exact .inr ⟨j, fun hji => hij hji.symm, hit ▸ hget⟩

/-- A consumed member that stays in its source. -/
theorem Merging.consume (h : Merging desc cursor ks iters left)
    (hheads : ∀ it ∈ iters, it.buf.head? = (it.rest ks desc cursor).head?)
    (hbest : best.Least desc iters) :
    ∃ left', left = best.entry :: left' ∧
      Merging desc cursor ks (iters.modify best.index Iter.consume) left' := by
  obtain ⟨it, buf, rest, left', hget, hkey, hbuf, hrest, hleft, hmerges⟩ := h.pop hheads hbest
  obtain ⟨rest', hrest', hconsumed, hsound⟩ := (h.sound it (List.mem_of_getElem? hget)).consume hbuf
  obtain rfl : rest' = rest := (List.cons.inj (hrest'.symm.trans hrest)).2
  refine ⟨left', hleft, ⟨?_, ?_, ?_⟩⟩
  · rw [map_modify_eq_set hget hconsumed fun _ _ _ _ => rfl]
    exact hmerges
  · intro it' hit'
    rcases mem_modify hit' with ⟨it₁, hget₁, rfl⟩ | ⟨j, -, hget₁⟩
    · obtain rfl : it = it₁ := Option.some.inj (hget.symm.trans hget₁)
      exact hsound
    · exact h.sound it' (List.mem_of_getElem? hget₁)
  · rw [map_key_modify (f := Iter.consume) fun _ => rfl]
    exact h.disjoint

/-- The best head's member is in its source, and in no other. -/
theorem Merging.best_mem (h : Merging desc cursor ks iters left)
    (hheads : ∀ it ∈ iters, it.buf.head? = (it.rest ks desc cursor).head?)
    (hbest : best.Least desc iters) :
    best.key ∈ iters.map (·.key) ∧ best.entry.1 ∈ (best.key.zset ks).members := by
  obtain ⟨it, buf, rest, left', hget, hkey, hbuf, hrest, hleft, hmerges⟩ := h.pop hheads hbest
  have hit : it ∈ iters := List.mem_of_getElem? hget
  have hmem : best.entry ∈ bounded (it.key.zset ks) desc cursor :=
    Iter.mem_rest (hrest ▸ List.mem_cons_self)
  refine ⟨hkey ▸ List.mem_map_of_mem hit, ?_⟩
  rw [← hkey, ZSet.mem_members]
  exact ⟨_, (mem_bounded.mp hmem).1⟩

/-- A consumed orphan that is removed. -/
theorem Merging.heal (h : Merging desc cursor ks iters left)
    (hheads : ∀ it ∈ iters, it.buf.head? = (it.rest ks desc cursor).head?)
    (hbest : best.Least desc iters) :
    ∃ left', left = best.entry :: left' ∧
      Merging desc cursor (best.key.rem ks best.entry.1)
        ((iters.modify best.index Iter.consume).modify best.index Iter.healed) left' := by
  have hmember := (h.best_mem hheads hbest).2
  obtain ⟨it, buf, rest, left', hget, hkey, hbuf, hrest, hleft, hmerges⟩ := h.pop hheads hbest
  obtain ⟨rest', hrest', hhealed, hsound⟩ := (h.sound it (List.mem_of_getElem? hget)).heal hbuf
  obtain rfl : rest' = rest := (List.cons.inj (hrest'.symm.trans hrest)).2
  rw [← hkey] at hmember ⊢
  have hother : ∀ j it', j ≠ best.index → iters[j]? = some it' →
      best.entry.1 ∉ (it'.key.zset ks).members := fun j it' hne hget' =>
    h.disjoint.notMem hget hget' hne hmember
  rw [List.modify_modify_eq]
  refine ⟨left', hleft, ⟨?_, ?_, ?_⟩⟩
  · rw [map_modify_eq_set hget hhealed fun j it' hne hget' => Iter.rest_other (hother j it' hne hget')]
    exact hmerges
  · intro it' hit'
    rcases mem_modify hit' with ⟨it₁, hget₁, rfl⟩ | ⟨j, hne, hget₁⟩
    · obtain rfl : it = it₁ := Option.some.inj (hget.symm.trans hget₁)
      exact hsound
    · exact (h.sound it' (List.mem_of_getElem? hget₁)).other (hother j it' hne hget₁)
  · rw [map_key_modify (f := Iter.healed ∘ Iter.consume) fun _ => rfl]
    exact h.disjoint.rem it.key best.entry.1

end Merging

/-! ## The whole loop -/

/-- An entry whose job is there, matches and lies past the cursor. -/
def listable (jobs : JsMap JobId (JobHash V)) (desc : Bool) (filters : ResidualFilters)
    (cursor : Option Entry) (entry : Entry) : Bool :=
  pastCursor desc cursor entry && (jobs.get? entry.1).any filters.admits

def removeAll (removed : List (ListSource × JobId)) (ks : Keyspace V) : Keyspace V :=
  removed.foldl (fun ks r => r.1.rem ks r.2) ks

theorem members_removeAll_subset (removed : List (ListSource × JobId)) (key : ListSource)
    {ks : Keyspace V} {id : JobId} (h : id ∈ (key.zset (removeAll removed ks)).members) :
    id ∈ (key.zset ks).members := by
  induction removed generalizing ks with
  | nil => exact h
  | cons r removed ih => exact members_rem_subset r.1 key ks (ih h)

/-- What the loop makes of the entries it has before it. -/
structure Listed (desc : Bool) (filters : ResidualFilters) (cursor : Option Entry) (limit : ℕ)
    (keys : List ListSource) (s s' : ListState V) (left : List Entry) : Prop where
  items : s'.items = s.items ++
    ((left.filter (listable s.ks.jobs desc filters cursor)).take (limit - s.items.length)).filterMap
      fun entry => s.ks.jobs.get? entry.1
  more : s'.more = decide
    (limit - s.items.length < (left.filter (listable s.ks.jobs desc filters cursor)).length)
  /-- It stops at the first match too many, or when nothing is left; orphans it has passed are gone. -/
  visited : ∃ visited rest, left = visited ++ rest ∧
    (s'.more = false → rest = []) ∧
    (s'.more = true → ∃ front last, visited = front ++ [last] ∧
      listable s.ks.jobs desc filters cursor last = true ∧
      (front.filter (listable s.ks.jobs desc filters cursor)).length = limit - s.items.length) ∧
    ∀ entry ∈ visited, pastCursor desc cursor entry = true → s.ks.jobs.get? entry.1 = none →
      ∀ key ∈ keys, entry.1 ∉ (key.zset s'.ks).members
  removed : ∃ removed, s'.ks = removeAll removed s.ks ∧
    ∀ r ∈ removed, r.1 ∈ keys ∧ r.2 ∈ (r.1.zset s.ks).members ∧ s.ks.jobs.get? r.2 = none

section Loop

variable {desc : Bool} {filters : ResidualFilters} {cursor : Option Entry} {limit : ℕ}
  {keys : List ListSource} {s s' : ListState V} {left : List Entry} {entry : Entry}

/-- An entry that is passed over. -/
theorem Listed.skip {iters : List Iter}
    (h : Listed desc filters cursor limit keys { s with iters } s' left)
    (hentry : listable s.ks.jobs desc filters cursor entry = false)
    (hkept : pastCursor desc cursor entry = true → (s.ks.jobs.get? entry.1).isSome) :
    Listed desc filters cursor limit keys s s' (entry :: left) := by
  have hfilter : (entry :: left).filter (listable s.ks.jobs desc filters cursor) =
      left.filter (listable s.ks.jobs desc filters cursor) := by
    rw [List.filter_cons, if_neg (by rw [hentry]; decide)]
  obtain ⟨visited, rest, hleft, hrest, hlast, hgone⟩ := h.visited
  refine ⟨?_, ?_, ⟨entry :: visited, rest, ?_, hrest, fun hmore => ?_, ?_⟩, h.removed⟩
  · rw [hfilter]
    exact h.items
  · rw [hfilter]
    exact h.more
  · rw [hleft, List.cons_append]
  · obtain ⟨front, last, hvisited, hwanted, hcount⟩ := hlast hmore
    refine ⟨entry :: front, last, by rw [hvisited, List.cons_append], hwanted, ?_⟩
    rw [List.filter_cons, if_neg (by rw [hentry]; decide)]
    exact hcount
  · intro e he hpast hnone
    rcases List.mem_cons.mp he with rfl | he
    · have hsome := hkept hpast
      rw [hnone] at hsome
      cases hsome
    · exact hgone e he hpast hnone

/-- A match that is taken. -/
theorem Listed.take {iters : List Iter} {job : JobHash V}
    (h : Listed desc filters cursor limit keys { s with iters, items := s.items ++ [job] } s' left)
    (hroom : s.items.length < limit) (hjob : s.ks.jobs.get? entry.1 = some job)
    (hentry : listable s.ks.jobs desc filters cursor entry = true) :
    Listed desc filters cursor limit keys s s' (entry :: left) := by
  have hfilter : (entry :: left).filter (listable s.ks.jobs desc filters cursor) =
      entry :: left.filter (listable s.ks.jobs desc filters cursor) := by
    rw [List.filter_cons, if_pos hentry]
  have hlimit : limit - s.items.length = (limit - (s.items.length + 1)) + 1 := by omega
  obtain ⟨visited, rest, hleft, hrest, hlast, hgone⟩ := h.visited
  refine ⟨?_, ?_, ⟨entry :: visited, rest, ?_, hrest, fun hmore => ?_, ?_⟩, h.removed⟩
  · rw [h.items, hfilter, hlimit, List.take_succ_cons, List.filterMap_cons, hjob]
    simp
  · rw [h.more, hfilter, hlimit]
    simp
  · rw [hleft, List.cons_append]
  · obtain ⟨front, last, hvisited, hwanted, hcount⟩ := hlast hmore
    refine ⟨entry :: front, last, by rw [hvisited, List.cons_append], hwanted, ?_⟩
    rw [List.filter_cons, if_pos hentry, List.length_cons, hlimit]
    simp only [List.length_append, List.length_singleton] at hcount
    omega
  · intro e he hpast hnone
    rcases List.mem_cons.mp he with rfl | he
    · rw [hjob] at hnone
      cases hnone
    · exact hgone e he hpast hnone

/-- An orphan that is removed. -/
theorem Listed.heal {iters : List Iter} {key : ListSource}
    (h : Listed desc filters cursor limit keys { s with ks := key.rem s.ks entry.1, iters } s' left)
    (hkey : key ∈ keys) (hmember : entry.1 ∈ (key.zset s.ks).members)
    (hjob : s.ks.jobs.get? entry.1 = none)
    (hother : ∀ key' ∈ keys, key' ≠ key → entry.1 ∉ (key'.zset s.ks).members) :
    Listed desc filters cursor limit keys s s' (entry :: left) := by
  have hentry : listable s.ks.jobs desc filters cursor entry = false := by
    rw [listable, hjob]
    simp
  have hfilter : (entry :: left).filter (listable s.ks.jobs desc filters cursor) =
      left.filter (listable s.ks.jobs desc filters cursor) := by
    rw [List.filter_cons, if_neg (by rw [hentry]; decide)]
  have hjobs : (key.rem s.ks entry.1).jobs = s.ks.jobs := jobs_rem ..
  obtain ⟨visited, rest, hleft, hrest, hlast, hgone⟩ := h.visited
  obtain ⟨removed, hks, hremoved⟩ := h.removed
  simp only [hjobs] at hlast hgone hremoved
  refine ⟨?_, ?_, ⟨entry :: visited, rest, ?_, hrest, fun hmore => ?_, ?_⟩,
    ⟨(key, entry.1) :: removed, hks, ?_⟩⟩
  · rw [hfilter]
    simpa only [hjobs] using h.items
  · rw [hfilter]
    simpa only [hjobs] using h.more
  · rw [hleft, List.cons_append]
  · obtain ⟨front, last, hvisited, hwanted, hcount⟩ := hlast hmore
    refine ⟨entry :: front, last, by rw [hvisited, List.cons_append], hwanted, ?_⟩
    rw [List.filter_cons, if_neg (by rw [hentry]; decide)]
    exact hcount
  · intro e he hpast hnone key' hkey'
    rcases List.mem_cons.mp he with rfl | he
    · intro hmem
      rw [hks] at hmem
      have hleft := members_removeAll_subset removed key' hmem
      by_cases heq : key' = key
      · subst heq
        rw [ZSet.mem_members] at hleft
        simp at hleft
      · exact hother key' hkey' heq (members_rem_subset key key' s.ks hleft)
    · exact hgone e he hpast hnone key' hkey'
  · intro r hr
    rcases List.mem_cons.mp hr with rfl | hr
    · exact ⟨hkey, hmember, hjob⟩
    · obtain ⟨hk, hm, hnone⟩ := hremoved r hr
      exact ⟨hk, members_rem_subset key r.1 s.ks hm, hnone⟩

/-- A loop with nothing before it. -/
theorem Listed.nil {iters : List Iter} (hmore : s.more = false) :
    Listed desc filters cursor limit keys s { s with iters } [] := by
  refine ⟨by simp, by simp [hmore], ⟨[], [], rfl, fun _ => rfl, fun h => ?_, ?_⟩, ⟨[], rfl, ?_⟩⟩
  · rw [hmore] at h
    cases h
  · intro e he
    cases he
  · intro r hr
    cases hr

/-- A match too many. -/
theorem Listed.stop {iters : List Iter} {job : JobHash V} (hfull : s.items.length = limit)
    (hjob : s.ks.jobs.get? entry.1 = some job)
    (hentry : listable s.ks.jobs desc filters cursor entry = true) :
    Listed desc filters cursor limit keys s { s with iters, more := true } (entry :: left) := by
  have hlimit : limit - s.items.length = 0 := by omega
  refine ⟨by simp [hlimit], ?_, ⟨[entry], left, rfl, fun h => ?_, fun _ => ?_, ?_⟩, ⟨[], rfl, ?_⟩⟩
  · rw [hlimit, List.filter_cons, if_pos hentry]
    simp
  · cases h
  · exact ⟨[], entry, rfl, hentry, by simp [hlimit]⟩
  · intro e he hpast hnone
    rw [List.mem_singleton.mp he, hjob] at hnone
    cases hnone
  · intro r hr
    cases hr

/-- The loop ends when nothing is left. -/
theorem listLoop_nil {fuel : ℕ} (h : Merging desc cursor s.ks s.iters []) :
    listLoop desc filters cursor limit (fuel + 1) s =
      some { s with iters := s.iters.map (Iter.refill s.ks desc cursor) } := by
  obtain ⟨hrefilled, hheads⟩ := h.refill
  have hlead := leads_bestHead desc (s.iters.map (Iter.refill s.ks desc cursor))
  rw [listLoop]
  cases hbest : bestHead desc (s.iters.map (Iter.refill s.ks desc cursor)) with
  | none => rfl
  | some best =>
    rw [hbest] at hlead
    obtain ⟨left', hleft, -⟩ := hrefilled.consume hheads hlead
    cases hleft

/-- What a turn of the loop has in hand: the refilled iterators, and the first of the entries that are
left as their best head. -/
structure Turn (desc : Bool) (cursor : Option Entry) (s : ListState V) (entry : Entry)
    (left : List Entry) (best : Best) (iters : List Iter) : Prop where
  refilled : iters = s.iters.map (Iter.refill s.ks desc cursor)
  leads : bestHead desc iters = some best
  head : best.entry = entry
  key : best.key ∈ s.iters.map (·.key)
  member : entry.1 ∈ (best.key.zset s.ks).members
  other : ∀ key ∈ s.iters.map (·.key), key ≠ best.key → entry.1 ∉ (key.zset s.ks).members
  keys : iters.map (·.key) = s.iters.map (·.key)
  consumed : Merging desc cursor s.ks (iters.modify best.index Iter.consume) left
  healed : Merging desc cursor (best.key.rem s.ks entry.1)
    ((iters.modify best.index Iter.consume).modify best.index Iter.healed) left

theorem Merging.turn (h : Merging desc cursor s.ks s.iters (entry :: left)) :
    ∃ best iters, Turn desc cursor s entry left best iters := by
  obtain ⟨hrefilled, hheads⟩ := h.refill
  have hlead := leads_bestHead desc (s.iters.map (Iter.refill s.ks desc cursor))
  have hkeys : (s.iters.map (Iter.refill s.ks desc cursor)).map (·.key) = s.iters.map (·.key) := by
    rw [List.map_map]
    exact List.map_congr_left fun _ _ => Iter.refill_key
  cases hbest : bestHead desc (s.iters.map (Iter.refill s.ks desc cursor)) with
  | none =>
    rw [hbest] at hlead
    cases hrefilled.done hheads hlead
  | some best =>
    rw [hbest] at hlead
    obtain ⟨left₁, hleft₁, hconsumed⟩ := hrefilled.consume hheads hlead
    obtain ⟨left₂, hleft₂, hhealed⟩ := hrefilled.heal hheads hlead
    obtain ⟨hkey, hmember⟩ := hrefilled.best_mem hheads hlead
    obtain ⟨hentry, rfl⟩ := List.cons.inj hleft₁
    obtain ⟨-, rfl⟩ := List.cons.inj hleft₂
    rw [hkeys] at hkey
    subst hentry
    exact ⟨best, _, rfl, hbest, rfl, hkey, hmember, h.disjoint.notMem_key hkey hmember, hkeys,
      hconsumed, hhealed⟩

/-- The loop ends, and makes of the entries what it should. The induction is on the entries that are
left: each turn takes the first of them. -/
theorem listLoop_spec {fuel : ℕ} (h : Merging desc cursor s.ks s.iters left) (hmore : s.more = false)
    (hitems : s.items.length ≤ limit) (hfuel : left.length < fuel) :
    ∃ s', listLoop desc filters cursor limit fuel s = some s' ∧
      Listed desc filters cursor limit (s.iters.map (·.key)) s s' left := by
  induction left generalizing fuel s with
  | nil =>
    obtain ⟨fuel, rfl⟩ : ∃ fuel', fuel = fuel' + 1 := ⟨fuel - 1, by simp at hfuel; omega⟩
    exact ⟨_, listLoop_nil h, Listed.nil hmore⟩
  | cons entry left ih =>
    obtain ⟨fuel, rfl⟩ : ∃ fuel', fuel = fuel' + 1 := ⟨fuel - 1, by omega⟩
    have hfuel' : left.length < fuel := by
      rw [List.length_cons] at hfuel
      omega
    obtain ⟨best, iters, turn⟩ := h.turn
    have hconsumed : (iters.modify best.index Iter.consume).map (·.key) = s.iters.map (·.key) := by
      rw [map_key_modify (f := Iter.consume) fun _ => rfl, turn.keys]
    have hhealed : ((iters.modify best.index Iter.consume).modify best.index Iter.healed).map (·.key) =
        s.iters.map (·.key) := by
      rw [map_key_modify (f := Iter.healed) fun _ => rfl, hconsumed]
    rw [listLoop, ← turn.refilled]
    simp only [turn.leads, turn.head]
    cases hpast : pastCursor desc cursor entry with
    | false =>
      have hentry : listable s.ks.jobs desc filters cursor entry = false := by
        rw [listable, hpast, Bool.false_and]
      obtain ⟨s', hrun, hlisted⟩ :=
        ih (s := { s with iters := iters.modify best.index Iter.consume }) turn.consumed hmore hitems hfuel'
      rw [hconsumed] at hlisted
      refine ⟨s', hrun, hlisted.skip hentry fun hpast' => ?_⟩
      rw [hpast] at hpast'
      cases hpast'
    | true =>
      simp only [if_true]
      cases hjob : s.ks.jobs.get? entry.1 with
      | none =>
        obtain ⟨s', hrun, hlisted⟩ :=
          ih (s := { s with
            ks := best.key.rem s.ks entry.1
            iters := (iters.modify best.index Iter.consume).modify best.index Iter.healed })
            turn.healed hmore hitems hfuel'
        rw [hhealed] at hlisted
        exact ⟨s', hrun, hlisted.heal turn.key turn.member hjob turn.other⟩
      | some job =>
        have hlistable : listable s.ks.jobs desc filters cursor entry = filters.admits job := by
          rw [listable, hpast, hjob]
          rfl
        dsimp only
        cases hadmits : filters.admits job with
        | false =>
          obtain ⟨s', hrun, hlisted⟩ :=
            ih (s := { s with iters := iters.modify best.index Iter.consume }) turn.consumed hmore hitems hfuel'
          rw [hconsumed] at hlisted
          exact ⟨s', hrun, hlisted.skip (hlistable.trans hadmits) fun _ => by rw [hjob]; rfl⟩
        | true =>
          rw [if_pos rfl]
          by_cases hfull : limit ≤ s.items.length
          · rw [if_pos hfull]
            exact ⟨_, rfl, Listed.stop (by omega) hjob (hlistable.trans hadmits)⟩
          · rw [if_neg hfull]
            obtain ⟨s', hrun, hlisted⟩ :=
              ih (s := { s with
                iters := iters.modify best.index Iter.consume, items := s.items ++ [job] })
                turn.consumed hmore (by simp; omega) hfuel'
            rw [hconsumed] at hlisted
            exact ⟨s', hrun, hlisted.take (by omega) hjob (hlistable.trans hadmits)⟩

end Loop

end EffectMq.Redis
