import EffectMq.Worker.Relay

/-! # One relay drain

`relayDrain` with everything that happens between its calls: other relays delete entries, operations
on the store append some, and a delivery may fail or lose its deletion. The drain keeps a log of what
it peeked, offered and deleted.

`Drain.Inv` is the invariant: what was peeked lies at or before the cursor, what was there from the
start lies past it or was peeked, and only entries of a delivered group were deleted.
-/

namespace EffectMq.Worker
set_option autoImplicit false
set_option maxHeartbeats 250000

open Transition Memory

variable {V : Type}

/-! ## The drain -/

/-- How the delivery of a group goes. A deletion without an answer may have had its effect. -/
inductive Delivery
  | failed
  | undeleted (effect : Bool)
  | deleted
  deriving DecidableEq

inductive DrainEvent (V : Type)
  | peeked (entries : List (OutboxEntry V))
  | offered (key : String) (group : List (OutboxEntry V)) (delivered : Bool)
  | deleted (ids : List ℕ)

structure Drain (V : Type) where
  store : Store V
  calls : ℕ
  log : List (DrainEvent V)

/-- The world around a drain: the routable stores, what others do before each call, and how each
call to a parent store goes. -/
structure DrainWorld (V : Type) where
  routes : List String
  others : ℕ → List (Millis × Op V)
  deliveries : ℕ → Delivery

def Drain.start (s : Store V) : Drain V := ⟨s, 0, []⟩

/-- Others act before the next call. -/
def Drain.await (w : DrainWorld V) (d : Drain V) : Drain V :=
  { d with store := execs d.store (w.others d.calls), calls := d.calls + 1 }

def Drain.note (d : Drain V) (event : DrainEvent V) : Drain V := { d with log := d.log ++ [event] }

def Drain.delete (d : Drain V) (ids : List ℕ) : Drain V :=
  { d with store := deleteOutbox d.store ids }.note (.deleted ids)

/-- One parent store: a failure leaves the group for the next pass. -/
def relayGroup (w : DrainWorld V) (d : Drain V) (group : String × List (OutboxEntry V)) : Drain V :=
  let d := d.await w
  match w.deliveries d.calls with
  | .failed => d.note (.offered group.1 group.2 false)
  | .undeleted effect =>
    let d := (d.note (.offered group.1 group.2 true)).await w
    if effect then d.delete (group.2.map (·.id)) else d
  | .deleted => ((d.note (.offered group.1 group.2 true)).await w).delete (group.2.map (·.id))

def relayPage (w : DrainWorld V) (d : Drain V) (entries : List (OutboxEntry V)) : Drain V :=
  (groupByStore w.routes entries).entries.foldl (relayGroup w) (d.note (.peeked entries))

/-- So many pages at most; says whether the drain has returned. -/
def relayDrain (w : DrainWorld V) : ℕ → Option ℕ → Drain V → Bool × Drain V
  | 0, _, d => (false, d)
  | pages + 1, after, d =>
    let d := d.await w
    let entries := peekOutbox d.store relayPageSize after
    match entries.getLast? with
    | none => (true, d)
    | some last =>
      let d := relayPage w d entries
      if entries.length < relayPageSize then (true, d)
      else relayDrain w pages (some last.id) d

/-! ## What the log says -/

def DrainEvent.peeks : DrainEvent V → List (OutboxEntry V)
  | .peeked entries => entries
  | _ => []

def DrainEvent.offers : DrainEvent V → List (OutboxEntry V)
  | .offered _ group _ => group
  | _ => []

def DrainEvent.fails : DrainEvent V → List (OutboxEntry V)
  | .offered _ group false => group
  | _ => []

def DrainEvent.delivers : DrainEvent V → List (OutboxEntry V)
  | .offered _ group true => group
  | _ => []

def peeks (log : List (DrainEvent V)) : List (OutboxEntry V) := log.flatMap DrainEvent.peeks

def offers (log : List (DrainEvent V)) : List (OutboxEntry V) := log.flatMap DrainEvent.offers

/-- The ids that others name in a deletion. -/
def DrainWorld.Deletes (w : DrainWorld V) (id : ℕ) : Prop :=
  ∃ call, ∃ act ∈ w.others call, id ∈ act.2.dropped

/-- Finitely many entries are appended: the counter stays below a bound, however long the drain is
followed. -/
def DrainWorld.Finite (w : DrainWorld V) (s : Store V) : Prop :=
  ∃ bound, ∀ pages, (relayDrain w pages none (.start s)).2.store.outboxSeq ≤ bound

/-- The outbox is listed by id and its counter is past every entry. -/
structure OutboxOrdered (s : Store V) : Prop where
  sorted : (s.outbox.map (·.id)).Pairwise (· < ·)
  bounded : ∀ e ∈ s.outbox, e.id ≤ s.outboxSeq

/-- Every group goes to a routable store, and holds what is addressed to that store. -/
def Addressed (w : DrainWorld V) (log : List (DrainEvent V)) : Prop :=
  ∀ key group delivered, .offered key group delivered ∈ log →
    key ∈ w.routes ∧ ∀ e ∈ group, e.parentStoreKey = key

/-- What a drain that has returned has done. -/
structure DrainedWell (w : DrainWorld V) (s : Store V) (d : Drain V) : Prop where
  once : ((peeks d.log).map (·.id)).Nodup
  addressed : Addressed w d.log
  delivered : ∀ e ∈ s.outbox, e.parentStoreKey ∈ w.routes → ¬w.Deletes e.id → e ∈ offers d.log
  offeredOnce : ((offers d.log).map (·.id)).Nodup
  deletions : ∀ before ids after, d.log = before ++ .deleted ids :: after → ∀ id ∈ ids,
    ∃ e ∈ before.flatMap DrainEvent.delivers, e.id = id
  left : ∀ e, e ∈ s.outbox ∨ e ∈ peeks d.log → ¬w.Deletes e.id →
    e.parentStoreKey ∉ w.routes ∨ e ∈ d.log.flatMap DrainEvent.fails → e ∈ d.store.outbox

/-! ## The outbox under operations -/

theorem reports_sorted (jobs : List (MemJob V)) : ∀ seq,
    ((reports seq jobs).map (·.id)).Pairwise (· < ·) := by
  induction jobs with
  | nil => exact fun _ => List.Pairwise.nil
  | cons job jobs ih =>
    intro seq
    simp only [reports]
    split
    · rw [List.map_cons, List.pairwise_cons]
      refine ⟨fun id hid => ?_, ih _⟩
      obtain ⟨e, he, rfl⟩ := List.mem_map.mp hid
      exact (mem_reports he).1
    · exact ih seq

/-- The outbox of `c` some operations later: entries of the ids in `gone` may have been deleted, and
what was added has new ids. -/
structure Moves (gone : ℕ → Prop) (c c' : Store V) : Prop where
  flow : FlowInv Covers c'
  ordered : OutboxOrdered c'
  seq : c.outboxSeq ≤ c'.outboxSeq
  old : ∀ e ∈ c'.outbox, e.id ≤ c.outboxSeq → e ∈ c.outbox
  kept : ∀ e ∈ c.outbox, ¬gone e.id → e ∈ c'.outbox

namespace Moves

variable {gone : ℕ → Prop} {c c' c'' : Store V}

theorem refl (hf : FlowInv Covers c) (ho : OutboxOrdered c) : Moves gone c c :=
  ⟨hf, ho, le_rfl, fun _ he _ => he, fun _ he _ => he⟩

theorem trans (h : Moves gone c c') (h' : Moves gone c' c'') : Moves gone c c'' where
  flow := h'.flow
  ordered := h'.ordered
  seq := h.seq.trans h'.seq
  old e he hle := h.old e (h'.old e he (hle.trans h.seq)) hle
  kept e he hgone := h'.kept e (h.kept e he hgone) hgone

theorem exec (hf : FlowInv Covers c) (ho : OutboxOrdered c) (now : Millis) (op : Op V)
    (hgone : ∀ id ∈ op.dropped, gone id) : Moves gone c (Memory.exec c now op) := by
  obtain ⟨ended, hout, hseq, _⟩ := exec_outbox hf now op
  refine ⟨hf.exec covers_accounts now op.fans_all, ⟨?_, fun e he => ?_⟩, by omega,
    fun e he hle => ?_, fun e he hnot => ?_⟩
  · rw [hout, List.map_append, List.pairwise_append]
    refine ⟨ho.sorted.sublist (List.filter_sublist.map _), reports_sorted ended _, ?_⟩
    intro id hid id' hid'
    obtain ⟨e, he, rfl⟩ := List.mem_map.mp hid
    obtain ⟨e', he', rfl⟩ := List.mem_map.mp hid'
    exact (ho.bounded e (List.mem_of_mem_filter he)).trans_lt (mem_reports he').1
  · rw [hout, List.mem_append] at he
    rcases he with he | he
    · have hle := ho.bounded e (List.mem_of_mem_filter he)
      omega
    · rw [hseq]
      exact (mem_reports he).2
  · rw [hout, List.mem_append] at he
    rcases he with he | he
    · exact List.mem_of_mem_filter he
    · have hlt := (mem_reports he).1
      omega
  · rw [hout]
    refine List.mem_append_left _ (List.mem_filter.mpr ⟨he, ?_⟩)
    rw [decide_eq_true_eq]
    exact fun hid => hnot (hgone _ hid)

theorem execs (hf : FlowInv Covers c) (ho : OutboxOrdered c) {acts : List (Millis × Op V)}
    (hgone : ∀ act ∈ acts, ∀ id ∈ act.2.dropped, gone id) : Moves gone c (Memory.execs c acts) := by
  induction acts generalizing c with
  | nil => exact refl hf ho
  | cons act acts ih =>
    have hfirst := exec hf ho act.1 act.2 (hgone act List.mem_cons_self)
    exact hfirst.trans (ih hfirst.flow hfirst.ordered
      fun act' hact => hgone act' (List.mem_cons_of_mem _ hact))

theorem delete (hf : FlowInv Covers c) (ho : OutboxOrdered c) {ids : List ℕ}
    (hgone : ∀ id ∈ ids, gone id) : Moves gone c (deleteOutbox c ids) :=
  exec hf ho 0 (.deleteOutbox ids) hgone

end Moves

theorem Drain.await_moves {w : DrainWorld V} {d : Drain V} (hf : FlowInv Covers d.store)
    (ho : OutboxOrdered d.store) : Moves w.Deletes d.store (d.await w).store :=
  .execs hf ho fun act hact _ hid => ⟨d.calls, act, hact, hid⟩

/-! ## Pages -/

/-- Ids past the cursor. -/
def Beyond (after : Option ℕ) (id : ℕ) : Prop := ∀ seq, after = some seq → seq < id

/-- What `peekOutbox` takes its page from. -/
def unseen (c : Store V) (after : Option ℕ) : List (OutboxEntry V) :=
  match after with
  | none => c.outbox
  | some seq => c.outbox.filter fun entry => decide (seq < entry.id)

theorem mem_unseen {c : Store V} {after : Option ℕ} {e : OutboxEntry V} :
    e ∈ unseen c after ↔ e ∈ c.outbox ∧ Beyond after e.id := by
  cases after with
  | none => exact ⟨fun h => ⟨h, fun seq hseq => by cases hseq⟩, fun h => h.1⟩
  | some seq =>
    rw [unseen, List.mem_filter, decide_eq_true_eq]
    exact and_congr_right fun _ => ⟨fun h seq' hseq => Option.some.inj hseq ▸ h, fun h => h seq rfl⟩

theorem unseen_sorted {c : Store V} (ho : OutboxOrdered c) (after : Option ℕ) :
    ((unseen c after).map (·.id)).Pairwise (· < ·) := by
  cases after with
  | none => exact ho.sorted
  | some seq => exact ho.sorted.sublist (List.filter_sublist.map _)

/-- A page of a list in order: it is past the cursor up to its last entry. -/
structure Page (c : Store V) (limit : ℕ) (after : Option ℕ) (entries : List (OutboxEntry V)) :
    Prop where
  mem : ∀ e ∈ entries, e ∈ c.outbox ∧ Beyond after e.id
  sorted : (entries.map (·.id)).Pairwise (· < ·)
  last : ∀ last, entries.getLast? = some last → ∀ e ∈ entries, e.id ≤ last.id
  rest : ∀ last, entries.getLast? = some last → ∀ e ∈ c.outbox, Beyond after e.id →
    e ∈ entries ∨ last.id < e.id
  short : entries.length < limit → ∀ e ∈ c.outbox, Beyond after e.id → e ∈ entries

theorem page_peekOutbox {c : Store V} (ho : OutboxOrdered c) (limit : ℕ) (after : Option ℕ) :
    Page c limit after (peekOutbox c limit after) := by
  have hsorted := unseen_sorted ho after
  have hpeek : peekOutbox c limit after = (unseen c after).take limit := rfl
  rw [hpeek]
  have hsplit := List.take_append_drop limit (unseen c after)
  have hpage : (((unseen c after).take limit).map (·.id)).Pairwise (· < ·) :=
    hsorted.sublist ((List.take_sublist limit _).map _)
  refine ⟨fun e he => mem_unseen.mp (List.mem_of_mem_take he), hpage, fun last hlast e he => ?_,
    fun last hlast e he hbeyond => ?_, fun hshort e he hbeyond => ?_⟩
  · obtain ⟨init, hinit⟩ := List.getLast?_eq_some_iff.mp hlast
    rw [hinit] at he hpage
    rw [List.map_append, List.pairwise_append] at hpage
    rcases List.mem_append.mp he with he | he
    · exact (hpage.2.2 e.id (List.mem_map_of_mem he) last.id (by simp)).le
    · rw [List.mem_singleton.mp he]
  · have hin := mem_unseen.mpr ⟨he, hbeyond⟩
    rw [← hsplit] at hin hsorted
    rw [List.map_append, List.pairwise_append] at hsorted
    rcases List.mem_append.mp hin with hin | hin
    · exact .inl hin
    · exact .inr (hsorted.2.2 last.id (List.mem_map_of_mem (List.mem_of_getLast? hlast)) e.id
        (List.mem_map_of_mem hin))
  · rw [List.length_take, min_lt_iff] at hshort
    rw [List.take_of_length_le (by omega)]
    exact mem_unseen.mpr ⟨he, hbeyond⟩

/-- The groups of a page hold its routable entries. -/
theorem groupByStore_perm (routes : List String) (entries : List (OutboxEntry V)) :
    ((groupByStore routes entries).entries.flatMap (·.2)).Perm
      (entries.filter fun e => decide (e.parentStoreKey ∈ routes)) := by
  have hfold : ∀ (rest : List (OutboxEntry V)) (m : JsMap String (List (OutboxEntry V))),
      ((rest.foldl (addToGroup routes) m).entries.flatMap (·.2)).Perm
        (m.entries.flatMap (·.2) ++ rest.filter fun e => decide (e.parentStoreKey ∈ routes)) := by
    intro rest
    induction rest with
    | nil => simp
    | cons e rest ih =>
      intro m
      rw [List.foldl_cons]
      refine (ih _).trans ?_
      rw [addToGroup]
      by_cases hroute : e.parentStoreKey ∈ routes
      · rw [if_pos hroute, List.filter_cons_of_pos (by simpa using hroute)]
        have hset := (m.perm_flatMap_set e.parentStoreKey [e]).append_right
          (rest.filter fun e => decide (e.parentStoreKey ∈ routes))
        rwa [List.append_assoc] at hset
      · rw [if_neg hroute, List.filter_cons_of_neg (by simpa using hroute)]
  exact hfold entries ∅

theorem groupByStore_route (routes : List String) (entries : List (OutboxEntry V)) :
    ∀ group ∈ (groupByStore routes entries).entries, group.1 ∈ routes := by
  have hfold : ∀ (rest : List (OutboxEntry V)) (m : JsMap String (List (OutboxEntry V))),
      (∀ key group, m.get? key = some group → key ∈ routes) →
        ∀ key group, (rest.foldl (addToGroup routes) m).get? key = some group → key ∈ routes := by
    intro rest
    induction rest with
    | nil => exact fun _ hm => hm
    | cons e rest ih =>
      intro m hm
      refine ih _ ?_
      rw [addToGroup]
      split
      · rename_i hroute
        intro key group hget
        rw [JsMap.get?_set] at hget
        split at hget
        · rename_i hkey
          rw [hkey]
          exact hroute
        · exact hm key group hget
      · exact hm
  intro group hgroup
  exact hfold entries ∅ (fun _ _ hget => by cases hget) group.1 group.2 (JsMap.get?_eq_some.mpr hgroup)

/-! ## The invariant -/

/-- The drain with its cursor, and the entries of the page's groups that are still to be offered. -/
structure Drain.Inv (w : DrainWorld V) (s : Store V) (after : Option ℕ) (todo : List (OutboxEntry V))
    (d : Drain V) : Prop where
  flow : FlowInv Covers d.store
  ordered : OutboxOrdered d.store
  cursor : ∀ seq, after = some seq → seq ≤ d.store.outboxSeq
  peeked : ∀ e ∈ peeks d.log, ¬Beyond after e.id
  once : ((peeks d.log).map (·.id)).Nodup
  seen : ∀ e ∈ s.outbox, ¬w.Deletes e.id →
    e ∈ peeks d.log ∨ Beyond after e.id ∧ e ∈ d.store.outbox
  offers : (Worker.offers d.log ++ todo).Perm
    ((peeks d.log).filter fun e => decide (e.parentStoreKey ∈ w.routes))
  addressed : Addressed w d.log
  deletions : ∀ before ids rest, d.log = before ++ .deleted ids :: rest → ∀ id ∈ ids,
    ∃ e ∈ before.flatMap DrainEvent.delivers, e.id = id
  left : ∀ e, e ∈ s.outbox ∨ e ∈ peeks d.log → ¬w.Deletes e.id →
    e ∈ d.store.outbox ∨ ∃ e' ∈ d.log.flatMap DrainEvent.delivers, e'.id = e.id

/-- A log with one more event ends with a deletion, or the deletion was there. -/
theorem deleted_of_append {log before rest : List (DrainEvent V)} {event : DrainEvent V}
    {ids : List ℕ} (h : log ++ [event] = before ++ .deleted ids :: rest) :
    log = before ∧ event = .deleted ids ∨ ∃ rest', log = before ++ .deleted ids :: rest' := by
  rcases List.eq_nil_or_concat rest with rfl | ⟨rest', last, rfl⟩
  · obtain ⟨hlog, hevent⟩ := List.append_inj' h rfl
    exact .inl ⟨hlog, (List.singleton_inj.mp hevent)⟩
  · rw [List.concat_eq_append, ← List.cons_append, ← List.append_assoc] at h
    exact .inr ⟨rest', (List.append_inj' h rfl).1⟩

theorem Addressed.append {w : DrainWorld V} {log : List (DrainEvent V)} (h : Addressed w log)
    {event : DrainEvent V} (hevent : ∀ key group delivered, event = .offered key group delivered →
      key ∈ w.routes ∧ ∀ e ∈ group, e.parentStoreKey = key) : Addressed w (log ++ [event]) := by
  intro key group delivered hmem
  rcases List.mem_append.mp hmem with hmem | hmem
  · exact h key group delivered hmem
  · exact hevent key group delivered (List.mem_singleton.mp hmem).symm

theorem mem_offers_of_delivers {log : List (DrainEvent V)} {e : OutboxEntry V}
    (h : e ∈ log.flatMap DrainEvent.delivers) : e ∈ offers log := by
  obtain ⟨event, hevent, he⟩ := List.mem_flatMap.mp h
  refine List.mem_flatMap.mpr ⟨event, hevent, ?_⟩
  match event, he with
  | .offered _ _ true, he => exact he

namespace Drain.Inv

variable {w : DrainWorld V} {s : Store V} {after : Option ℕ} {todo : List (OutboxEntry V)}
  {d : Drain V}

theorem start (hf : FlowInv Covers s) (ho : OutboxOrdered s) :
    Drain.Inv w s none [] (.start s) where
  flow := hf
  ordered := ho
  cursor seq hseq := by cases hseq
  peeked e he := by cases he
  once := List.nodup_nil
  seen e he _ := .inr ⟨fun seq hseq => (by cases hseq), he⟩
  offers := List.Perm.refl _
  addressed key group delivered hmem := by cases hmem
  deletions before ids rest hlog := by simp [Drain.start] at hlog
  left e he _ := .inl (he.resolve_right fun h => by cases h)

theorem await (h : Drain.Inv w s after todo d) : Drain.Inv w s after todo (d.await w) := by
  have hmoves := Drain.await_moves (w := w) h.flow h.ordered
  refine ⟨hmoves.flow, hmoves.ordered, fun seq hseq => (h.cursor seq hseq).trans hmoves.seq, h.peeked,
    h.once, fun e he hnot => ?_, h.offers, h.addressed, h.deletions, fun e he hnot => ?_⟩
  · exact (h.seen e he hnot).imp_right fun ⟨hbeyond, hmem⟩ => ⟨hbeyond, hmoves.kept e hmem hnot⟩
  · exact (h.left e he hnot).imp_left fun hmem => hmoves.kept e hmem hnot

/-- A group is offered. -/
theorem note_offered {key : String} {group : List (OutboxEntry V)} (delivered : Bool)
    (hroute : key ∈ w.routes) (hkey : ∀ e ∈ group, e.parentStoreKey = key)
    (h : Drain.Inv w s after (group ++ todo) d) :
    Drain.Inv w s after todo (d.note (.offered key group delivered)) := by
  have hpeeks : peeks (d.note (.offered key group delivered)).log = peeks d.log := by
    simp [peeks, Drain.note, DrainEvent.peeks]
  refine ⟨h.flow, h.ordered, h.cursor, ?_, ?_, ?_, ?_, ?_, ?_, ?_⟩
  · rw [hpeeks]
    exact h.peeked
  · rw [hpeeks]
    exact h.once
  · rw [hpeeks]
    exact h.seen
  · have hoffers : Worker.offers (d.note (.offered key group delivered)).log =
        Worker.offers d.log ++ group := by
      simp [Worker.offers, Drain.note, DrainEvent.offers]
    rw [hpeeks, hoffers, List.append_assoc]
    exact h.offers
  · refine h.addressed.append fun key' group' delivered' heq => ?_
    cases heq
    exact ⟨hroute, hkey⟩
  · intro before ids rest hlog
    rcases deleted_of_append hlog with ⟨_, hevent⟩ | ⟨rest', hlog⟩
    · cases hevent
    · exact h.deletions before ids rest' hlog
  · rw [hpeeks]
    intro e he hnot
    refine (h.left e he hnot).imp_right fun ⟨e', he', hid⟩ => ⟨e', ?_, hid⟩
    rw [Drain.note, List.flatMap_append]
    exact List.mem_append_left _ he'

/-- The entries of a delivered group are deleted. -/
theorem delete {group : List (OutboxEntry V)} (h : Drain.Inv w s after todo d)
    (hgroup : ∀ e ∈ group, e ∈ d.log.flatMap DrainEvent.delivers) :
    Drain.Inv w s after todo (d.delete (group.map (·.id))) := by
  have hpeeks : peeks (d.delete (group.map (·.id))).log = peeks d.log := by
    simp [peeks, Drain.delete, Drain.note, DrainEvent.peeks]
  have hpast : ∀ id ∈ group.map (·.id), ¬Beyond after id := by
    intro id hid
    obtain ⟨e, he, rfl⟩ := List.mem_map.mp hid
    have hoffer := List.mem_append_left todo (mem_offers_of_delivers (hgroup e he))
    exact h.peeked e (List.mem_of_mem_filter (h.offers.mem_iff.mp hoffer))
  have hmoves : Moves (fun id => id ∈ group.map (·.id)) d.store
      (deleteOutbox d.store (group.map (·.id))) := .delete h.flow h.ordered fun _ hid => hid
  refine ⟨hmoves.flow, hmoves.ordered, h.cursor, ?_, ?_, ?_, ?_, ?_, ?_, ?_⟩
  · rw [hpeeks]
    exact h.peeked
  · rw [hpeeks]
    exact h.once
  · rw [hpeeks]
    intro e he hnot
    exact (h.seen e he hnot).imp_right fun ⟨hbeyond, hmem⟩ =>
      ⟨hbeyond, hmoves.kept e hmem fun hid => hpast e.id hid hbeyond⟩
  · have hoffers : Worker.offers (d.delete (group.map (·.id))).log = Worker.offers d.log := by
      simp [Worker.offers, Drain.delete, Drain.note, DrainEvent.offers]
    rw [hpeeks, hoffers]
    exact h.offers
  · exact h.addressed.append fun _ _ _ heq => by cases heq
  · intro before ids rest hlog
    rcases deleted_of_append hlog with ⟨rfl, hevent⟩ | ⟨rest', hlog⟩
    · cases hevent
      intro id hid
      obtain ⟨e, he, rfl⟩ := List.mem_map.mp hid
      exact ⟨e, hgroup e he, rfl⟩
    · exact h.deletions before ids rest' hlog
  · rw [hpeeks]
    intro e he hnot
    have hdelivers : (d.delete (group.map (·.id))).log.flatMap DrainEvent.delivers =
        d.log.flatMap DrainEvent.delivers := by
      simp [Drain.delete, Drain.note, DrainEvent.delivers]
    rw [hdelivers]
    by_cases hid : e.id ∈ group.map (·.id)
    · obtain ⟨e', he', heq⟩ := List.mem_map.mp hid
      exact .inr ⟨e', hgroup e' he', heq⟩
    · exact (h.left e he hnot).imp_left fun hmem => hmoves.kept e hmem hid

theorem relayGroup {key : String} {group : List (OutboxEntry V)} (hroute : key ∈ w.routes)
    (hkey : ∀ e ∈ group, e.parentStoreKey = key) (h : Drain.Inv w s after (group ++ todo) d) :
    Drain.Inv w s after todo (Worker.relayGroup w d (key, group)) := by
  have hdelivered : ∀ e ∈ group,
      e ∈ (((d.await w).note (.offered key group true)).await w).log.flatMap
        DrainEvent.delivers := by
    intro e he
    simp [Drain.await, Drain.note, DrainEvent.delivers, he]
  have hawait := h.await
  unfold Worker.relayGroup
  simp only
  split
  · exact hawait.note_offered false hroute hkey
  · have hoffered := (hawait.note_offered true hroute hkey).await
    split
    · exact hoffered.delete hdelivered
    · exact hoffered
  · exact (hawait.note_offered true hroute hkey).await.delete hdelivered

theorem relayGroups {groups : List (String × List (OutboxEntry V))}
    (hgroups : ∀ group ∈ groups, group.1 ∈ w.routes ∧ ∀ e ∈ group.2, e.parentStoreKey = group.1)
    (h : Drain.Inv w s after (groups.flatMap (·.2)) d) :
    Drain.Inv w s after [] (groups.foldl (Worker.relayGroup w) d) := by
  induction groups generalizing d with
  | nil => exact h
  | cons group groups ih =>
    rw [List.flatMap_cons] at h
    obtain ⟨hroute, hkey⟩ := hgroups group List.mem_cons_self
    exact ih (fun group' hmem => hgroups group' (List.mem_cons_of_mem _ hmem))
      (h.relayGroup hroute hkey)

/-- A page is peeked: its entries are new to the drain, and the cursor moves to the last of them. -/
theorem note_peeked {entries : List (OutboxEntry V)} {limit : ℕ} {last : OutboxEntry V}
    (h : Drain.Inv w s after [] d) (hpage : Page d.store limit after entries)
    (hlast : entries.getLast? = some last) :
    Drain.Inv w s (some last.id) ((groupByStore w.routes entries).entries.flatMap (·.2))
      (d.note (.peeked entries)) := by
  have hpeeks : peeks (d.note (.peeked entries)).log = peeks d.log ++ entries := by
    simp [peeks, Drain.note, DrainEvent.peeks]
  have hlastMem := List.mem_of_getLast? hlast
  -- what was peeked lies at or before the old cursor, which the last entry is past
  have hold : ∀ e ∈ peeks d.log, ∀ id, Beyond after id → e.id < id := by
    intro e he id hid
    have hnot := h.peeked e he
    simp only [Beyond, not_forall, not_lt] at hnot
    obtain ⟨seq, hseq, hle⟩ := hnot
    exact hle.trans_lt (hid seq hseq)
  refine ⟨h.flow, h.ordered, ?_, ?_, ?_, ?_, ?_, ?_, ?_, ?_⟩
  · rintro seq hseq
    rw [← Option.some.inj hseq]
    exact h.ordered.bounded last (hpage.mem last hlastMem).1
  · rw [hpeeks]
    intro e he hbeyond
    have hlt := hbeyond last.id rfl
    rcases List.mem_append.mp he with he | he
    · exact absurd (hold e he last.id (hpage.mem last hlastMem).2) (by omega)
    · exact absurd (hpage.last last hlast e he) (by omega)
  · rw [hpeeks, List.map_append, List.nodup_append]
    refine ⟨h.once, hpage.sorted.imp fun hlt => hlt.ne, ?_⟩
    intro id hid id' hid'
    obtain ⟨e, he, rfl⟩ := List.mem_map.mp hid
    obtain ⟨e', he', rfl⟩ := List.mem_map.mp hid'
    exact (hold e he e'.id (hpage.mem e' he').2).ne
  · rw [hpeeks]
    intro e he hnot
    rcases h.seen e he hnot with hseen | ⟨hbeyond, hmem⟩
    · exact .inl (List.mem_append_left _ hseen)
    · rcases hpage.rest last hlast e hmem hbeyond with hin | hlt
      · exact .inl (List.mem_append_right _ hin)
      · exact .inr ⟨fun seq hseq => Option.some.inj hseq ▸ hlt, hmem⟩
  · have hoffers : Worker.offers (d.note (.peeked entries)).log = Worker.offers d.log := by
      simp [Worker.offers, Drain.note, DrainEvent.offers]
    have hbefore := h.offers
    rw [List.append_nil] at hbefore
    rw [hpeeks, hoffers, List.filter_append]
    exact hbefore.append (groupByStore_perm w.routes entries)
  · exact h.addressed.append fun _ _ _ heq => by cases heq
  · intro before ids rest hlog
    rcases deleted_of_append hlog with ⟨_, hevent⟩ | ⟨rest', hlog⟩
    · cases hevent
    · exact h.deletions before ids rest' hlog
  · rw [hpeeks]
    intro e he hnot
    have hdelivers : (d.note (.peeked entries)).log.flatMap DrainEvent.delivers =
        d.log.flatMap DrainEvent.delivers := by
      simp [Drain.note, DrainEvent.delivers]
    rw [hdelivers]
    rcases he with he | he
    · exact h.left e (.inl he) hnot
    · rcases List.mem_append.mp he with he | he
      · exact h.left e (.inr he) hnot
      · exact .inl (hpage.mem e he).1

end Drain.Inv

/-! ## The whole drain -/

/-- One page: past the cursor, to its last entry. -/
theorem Drain.Inv.page {w : DrainWorld V} {s : Store V} {after : Option ℕ} {d : Drain V}
    {last : OutboxEntry V} (h : Drain.Inv w s after [] d)
    (hlast : (peekOutbox d.store relayPageSize after).getLast? = some last) :
    Drain.Inv w s (some last.id) [] (relayPage w d (peekOutbox d.store relayPageSize after)) :=
  (h.note_peeked (page_peekOutbox h.ordered relayPageSize after) hlast).relayGroups
    fun group hgroup => ⟨groupByStore_route _ _ group hgroup,
      fun e he => (groupByStore_mem _ _ group hgroup e he).2⟩

theorem peeks_relayGroup (w : DrainWorld V) (d : Drain V) (group : String × List (OutboxEntry V)) :
    peeks (relayGroup w d group).log = peeks d.log := by
  unfold relayGroup
  simp only
  split
  · simp [peeks, Drain.note, Drain.await, DrainEvent.peeks]
  · split <;> simp [peeks, Drain.note, Drain.await, Drain.delete, DrainEvent.peeks]
  · simp [peeks, Drain.note, Drain.await, Drain.delete, DrainEvent.peeks]

theorem peeks_relayPage (w : DrainWorld V) (d : Drain V) (entries : List (OutboxEntry V)) :
    peeks (relayPage w d entries).log = peeks d.log ++ entries := by
  have hgroups : ∀ (groups : List (String × List (OutboxEntry V))) (d : Drain V),
      peeks (groups.foldl (relayGroup w) d).log = peeks d.log := by
    intro groups
    induction groups with
    | nil => exact fun _ => rfl
    | cons group groups ih =>
      intro d
      rw [List.foldl_cons, ih, peeks_relayGroup]
  rw [relayPage, hgroups]
  simp [peeks, Drain.note, DrainEvent.peeks]

/-- The invariant survives the drain, and a drain that has returned has peeked whatever was there. -/
theorem relayDrain_inv {w : DrainWorld V} {s : Store V} (pages : ℕ) {after : Option ℕ} {d : Drain V}
    (h : Drain.Inv w s after [] d) :
    (∃ after', Drain.Inv w s after' [] (relayDrain w pages after d).2) ∧
      ((relayDrain w pages after d).1 = true → ∀ e ∈ s.outbox, ¬w.Deletes e.id →
        e ∈ peeks (relayDrain w pages after d).2.log) := by
  induction pages generalizing after d with
  | zero => exact ⟨⟨after, h⟩, fun hdone => by cases hdone⟩
  | succ pages ih =>
    have hawait := h.await
    have hpage := page_peekOutbox hawait.ordered relayPageSize after
    rw [relayDrain]
    simp only
    cases hlast : (peekOutbox (d.await w).store relayPageSize after).getLast? with
    | none =>
      refine ⟨⟨after, hawait⟩, fun _ e he hnot => ?_⟩
      rw [List.getLast?_eq_none_iff] at hlast
      rcases hawait.seen e he hnot with hseen | ⟨hbeyond, hmem⟩
      · exact hseen
      · have hin := hpage.short (by rw [hlast]; exact Nat.zero_lt_succ 499) e hmem hbeyond
        rw [hlast] at hin
        cases hin
    | some last =>
      have hnext := hawait.page hlast
      simp only
      split
      · rename_i hshort
        refine ⟨⟨_, hnext⟩, fun _ e he hnot => ?_⟩
        simp only [peeks_relayPage]
        rcases hawait.seen e he hnot with hseen | ⟨hbeyond, hmem⟩
        · exact List.mem_append_left _ hseen
        · exact List.mem_append_right _ (hpage.short hshort e hmem hbeyond)
      · exact ih hnext

/-- The first id past the cursor. -/
def firstBeyond (after : Option ℕ) : ℕ := after.elim 0 (· + 1)

/-- Each full page moves the cursor, which the counter bounds. -/
theorem relayDrain_open {w : DrainWorld V} {s : Store V} (pages : ℕ) {after : Option ℕ} {d : Drain V}
    (h : Drain.Inv w s after [] d) (hopen : (relayDrain w pages after d).1 = false) :
    firstBeyond after + pages ≤ (relayDrain w pages after d).2.store.outboxSeq + 1 := by
  induction pages generalizing after d with
  | zero =>
    cases after with
    | none => exact Nat.zero_le _
    | some seq => exact Nat.succ_le_succ (h.cursor seq rfl)
  | succ pages ih =>
    have hawait := h.await
    have hpage := page_peekOutbox hawait.ordered relayPageSize after
    rw [relayDrain] at hopen ⊢
    simp only at hopen ⊢
    cases hlast : (peekOutbox (d.await w).store relayPageSize after).getLast? with
    | none =>
      rw [hlast] at hopen
      cases hopen
    | some last =>
      rw [hlast] at hopen
      simp only at hopen ⊢
      split at hopen
      · cases hopen
      · rename_i hfull
        rw [if_neg hfull]
        have hrest := ih (hawait.page hlast) hopen
        have hbeyond := (hpage.mem last (List.mem_of_getLast? hlast)).2
        have hcursor : firstBeyond after ≤ last.id := by
          cases after with
          | none => exact Nat.zero_le _
          | some seq => exact hbeyond seq rfl
        have hnext : firstBeyond (some last.id) = last.id + 1 := rfl
        omega

/-- An entry was offered once, so a delivered one did not fail. -/
theorem delivers_ne_fails {log : List (DrainEvent V)} (hnodup : ((offers log).map (·.id)).Nodup)
    {e e' : OutboxEntry V} (he : e ∈ log.flatMap DrainEvent.delivers)
    (he' : e' ∈ log.flatMap DrainEvent.fails) : e.id ≠ e'.id := by
  induction log with
  | nil => cases he
  | cons event log ih =>
    rw [offers, List.flatMap_cons, List.map_append, List.nodup_append] at hnodup
    obtain ⟨_, hrest, hdisjoint⟩ := hnodup
    have hoffered : ∀ {x}, x ∈ event.delivers ∨ x ∈ event.fails → x ∈ event.offers := by
      intro x hx
      match event, hx with
      | .offered _ _ true, .inl hx => exact hx
      | .offered _ _ false, .inr hx => exact hx
    have hfails : ∀ {x}, x ∈ log.flatMap DrainEvent.fails → x ∈ offers log := by
      intro x hx
      obtain ⟨event', hevent, hx⟩ := List.mem_flatMap.mp hx
      refine List.mem_flatMap.mpr ⟨event', hevent, ?_⟩
      match event', hx with
      | .offered _ _ false, hx => exact hx
    rw [List.flatMap_cons, List.mem_append] at he he'
    rcases he with he | he <;> rcases he' with he' | he'
    · match event, he, he' with
      | .offered _ _ true, _, he' => cases he'
    · exact hdisjoint _ (List.mem_map_of_mem (hoffered (.inl he))) _
        (List.mem_map_of_mem (hfails he'))
    · exact (hdisjoint _ (List.mem_map_of_mem (hoffered (.inr he'))) _
        (List.mem_map_of_mem (mem_offers_of_delivers he))).symm
    · exact ih hrest he he'

/-- A drain over an ordered outbox to which finitely many entries are appended returns, and by then
has done its work. -/
theorem relayDrain_offers (w : DrainWorld V) {s : Store V} (hf : FlowInv Covers s)
    (ho : OutboxOrdered s) (hfinite : w.Finite s) :
    ∃ pages, (relayDrain w pages none (.start s)).1 = true ∧
      DrainedWell w s (relayDrain w pages none (.start s)).2 := by
  obtain ⟨bound, hbound⟩ := hfinite
  have hstart : Drain.Inv w s none [] (.start s) := .start hf ho
  have hdone : (relayDrain w (bound + 2) none (.start s)).1 = true := by
    by_contra hnot
    have hopen := relayDrain_open (bound + 2) hstart (by simpa using hnot)
    have hle := hbound (bound + 2)
    have hzero : firstBeyond none = 0 := rfl
    omega
  obtain ⟨⟨after, hinv⟩, hall⟩ := relayDrain_inv (bound + 2) hstart
  have hall := hall hdone
  have hoffers := hinv.offers
  rw [List.append_nil] at hoffers
  have honce : ((offers (relayDrain w (bound + 2) none (.start s)).2.log).map (·.id)).Nodup := by
    rw [(hoffers.map _).nodup_iff]
    exact hinv.once.sublist (List.filter_sublist.map _)
  refine ⟨bound + 2, hdone, hinv.once, hinv.addressed, fun e he hroute hnot => ?_, honce, hinv.deletions,
    fun e he hnot hwhy => ?_⟩
  · exact hoffers.mem_iff.mpr (List.mem_filter.mpr ⟨hall e he hnot, by simpa using hroute⟩)
  · refine (hinv.left e he hnot).resolve_right ?_
    rintro ⟨e', hdelivered, hid⟩
    have hseen : e ∈ peeks (relayDrain w (bound + 2) none (.start s)).2.log :=
      he.elim (fun he => hall e he hnot) id
    obtain ⟨hseen', hroute⟩ :=
      List.mem_filter.mp (hoffers.mem_iff.mp (mem_offers_of_delivers hdelivered))
    obtain rfl := List.inj_on_of_nodup_map hinv.once hseen' hseen hid
    rcases hwhy with hwhy | hfails
    · exact hwhy (by simpa using hroute)
    · exact delivers_ne_fails honce hdelivered hfails rfl

/-- The outbox of a reachable store is ordered. -/
theorem reachable_outboxOrdered {s : Store V} (h : Reachable Initial Next s) : OutboxOrdered s := by
  have hinv : FlowInv Covers s ∧ OutboxOrdered s := by
    refine h.induct (I := fun s => FlowInv Covers s ∧ OutboxOrdered s) ?_ ?_
    · rintro s rfl
      exact ⟨.empty Covers, List.Pairwise.nil, fun _ he => by cases he⟩
    · rintro s event t rfl ⟨hf, ho⟩
      have hmoves : Moves (fun _ => True) s _ := Moves.exec hf ho event.1 event.2 fun _ _ => trivial
      exact ⟨hmoves.flow, hmoves.ordered⟩
  exact hinv.2

/-- A child of a flow in this parent store completes. -/
def childCompletes (id parentStoreKey : String) : List (Millis × Op Unit) :=
  [(0, .enqueue { EnqueueRequest.plain id "child" "q" () with
      parent := some ⟨"flow", "p", id, parentStoreKey, 1⟩ } .counter),
    (1, .claim ⟨"q", ["child"], id, 30⟩),
    (2, .ack id id (.complete (some ())))]

def threeReports : Store Unit :=
  execs Store.empty (childCompletes "a" "main" ++ childCompletes "b" "gone" ++
    childCompletes "c" "down" ++ childCompletes "d" "main")

/-- The first delivery goes through, the second fails. -/
def halfReachable : DrainWorld Unit :=
  ⟨["main", "down"], fun _ => [], fun call => if call = 2 then .deleted else .failed⟩

/-- One group is delivered and deleted, one fails, and one entry has no route. -/
theorem relayDrain_offers_halfReachable :
    (relayDrain halfReachable 1 none (.start threeReports)).2.store.outbox.map (·.id) =
        [2, 3] ∧
      ∃ pages, (relayDrain halfReachable pages none (.start threeReports)).1 = true ∧
        DrainedWell halfReachable threeReports
          (relayDrain halfReachable pages none (.start threeReports)).2 := by
  have hreach : Reachable Initial Next threeReports := reachable_next _
  refine ⟨rfl, relayDrain_offers halfReachable (reachable_recordInv hreach).flow
    (reachable_outboxOrdered hreach) ⟨4, fun pages => ?_⟩⟩
  cases pages with
  | zero => exact Nat.le_of_eq rfl
  | succ pages => exact Nat.le_of_eq rfl

end EffectMq.Worker
