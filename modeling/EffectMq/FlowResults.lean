import EffectMq.FlowSpecs
import EffectMq.Library.Paging

/-! # The results a collect handler reads

`decodeRow` and `makeResults` of `Flow.ts` over any store that serves the rows of a flow in pages. `A`
is the values of the members and `C` the causes of their failures.
-/

namespace EffectMq
set_option autoImplicit false
set_option maxHeartbeats 250000

variable {P V A C : Type}

/-! ## Definitions -/

/-- A dependency row as a store returns it. -/
structure FlowChildRecord (V : Type) where
  flowId : JobId
  childKey : String
  name : String
  storeKey : String
  childJobId : Option JobId
  status : ChildStatus
  exit : Option V
  failedReason : Option String
  cascaded : Bool
  deriving DecidableEq

structure ChildPage (V : Type) where
  items : List (FlowChildRecord V)
  cursor : Option String
  deriving DecidableEq

inductive Exit (A C : Type)
  | success (value : A)
  | failure (cause : C)
  deriving DecidableEq

/-- The cause of the child's exit, or the defect that stands for it. -/
inductive ChildCause (C : Type)
  | decoded (cause : C)
  | die (message : String)
  deriving DecidableEq

inductive SettledEntry (A C : Type)
  | completed (key name : String) (value : A)
  | failed (key name : String) (cause : ChildCause C)
  | cancelled (key name : String)
  deriving DecidableEq

def SettledEntry.key : SettledEntry A C → String
  | .completed key _ _ | .failed key _ _ | .cancelled key _ => key

def SettledEntry.outcome : SettledEntry A C → TerminalState
  | .completed .. => .completed
  | .failed .. => .failed
  | .cancelled .. => .cancelled

section
-- the decoder of the exit schema of a member
variable (flow : FlowDefinition P V) (exitSchema : MemberJob P V → V → Except String (Exit A C))

def noResult (row : FlowChildRecord V) : String :=
  row.failedReason.getD ("effect-mq: flow child \"" ++ row.childKey ++ "\" failed without a result")

/-- The outcome follows the exit where there is one, and a pending row has none. An exit that its
member cannot decode is a defect. -/
def decodeRow (row : FlowChildRecord V) : Except String (Option (SettledEntry A C)) :=
  match row.status with
  | .pending => .ok none
  | .cancelled => .ok (some (.cancelled row.childKey row.name))
  | .completed | .failed =>
    match row.exit with
    | none => .ok (some (.failed row.childKey row.name (.die (noResult row))))
    | some exit =>
      match flow.byName.get? row.name with
      | none =>
        .ok (some (.failed row.childKey row.name (.die ("effect-mq: flow \"" ++ flow.name ++
          "\" has no member definition for child \"" ++ row.name ++ "\""))))
      | some member =>
        (exitSchema member exit).map fun
          | .success value => some (.completed row.childKey row.name value)
          | .failure cause => some (.failed row.childKey row.name (.decoded cause))

/-- The settled entries of a page, and where the next one starts. -/
def decodePage (page : ChildPage V) : Except String (List (SettledEntry A C) × Option String) :=
  (page.items.mapM (decodeRow flow exitSchema)).map fun entries =>
    (entries.filterMap id, page.cursor)

end

/-- `Stream.paginate`: what it emits, and the defect it ends with if it fails. -/
def paginate {α : Type} (read : Option String → Except String (List α × Option String)) :
    ℕ → Option String → Option (List α × Option String)
  | 0, _ => none
  | fuel + 1, cursor =>
    match read cursor with
    | .error defect => some ([], some defect)
    | .ok (entries, none) => some (entries, none)
    | .ok (entries, some next) =>
      (paginate read fuel (some next)).map fun rest => (entries ++ rest.1, rest.2)

/-- The three buckets. -/
structure Collected (A C : Type) where
  completed : List (SettledEntry A C) := []
  failed : List (SettledEntry A C) := []
  cancelled : List (SettledEntry A C) := []
  deriving DecidableEq

def Collected.push (buckets : Collected A C) (entry : SettledEntry A C) : Collected A C :=
  match entry.outcome with
  | .completed => { buckets with completed := buckets.completed ++ [entry] }
  | .failed => { buckets with failed := buckets.failed ++ [entry] }
  | .cancelled => { buckets with cancelled := buckets.cancelled ++ [entry] }

/-- The loop of `all`. -/
def collectAll (read : Option String → Except String (List (SettledEntry A C) × Option String)) :
    ℕ → Option String → Collected A C → Option (Except String (Collected A C))
  | 0, _, _ => none
  | fuel + 1, cursor, buckets =>
    match read cursor with
    | .error defect => some (.error defect)
    | .ok (entries, none) => some (.ok (entries.foldl Collected.push buckets))
    | .ok (entries, some next) =>
      collectAll read fuel (some next) (entries.foldl Collected.push buckets)

/-! ## One row -/

/-- The exit is what a worker's ack wrote: a success on a completed row, and a failure on a failed
one that has an exit. -/
structure Written (flow : FlowDefinition P V) (exitSchema : MemberJob P V → V → Except String (Exit A C))
    (row : FlowChildRecord V) : Prop where
  declared : ∃ member, flow.byName.get? row.name = some member
  completed : row.status = .completed → ∃ exit, row.exit = some exit ∧
    ∀ member, flow.byName.get? row.name = some member →
      ∃ value, exitSchema member exit = .ok (.success value)
  failed : row.status = .failed → ∀ exit, row.exit = some exit →
    ∀ member, flow.byName.get? row.name = some member →
      ∃ cause, exitSchema member exit = .ok (.failure cause)

section
variable {flow : FlowDefinition P V} {exitSchema : MemberJob P V → V → Except String (Exit A C)}

/-- The entry says what its row says. -/
inductive Tells (flow : FlowDefinition P V)
    (exitSchema : MemberJob P V → V → Except String (Exit A C)) (row : FlowChildRecord V) :
    SettledEntry A C → Prop
  | completed {member : MemberJob P V} {exit : V} {value : A} (status : row.status = .completed)
      (declared : flow.byName.get? row.name = some member) (present : row.exit = some exit)
      (decodes : exitSchema member exit = .ok (.success value)) :
      Tells flow exitSchema row (.completed row.childKey row.name value)
  | failed {member : MemberJob P V} {exit : V} {cause : C} (status : row.status = .failed)
      (declared : flow.byName.get? row.name = some member) (present : row.exit = some exit)
      (decodes : exitSchema member exit = .ok (.failure cause)) :
      Tells flow exitSchema row (.failed row.childKey row.name (.decoded cause))
  | absent (status : row.status = .failed) (absent : row.exit = none) :
      Tells flow exitSchema row (.failed row.childKey row.name (.die (noResult row)))
  | cancelled (status : row.status = .cancelled) :
      Tells flow exitSchema row (.cancelled row.childKey row.name)

theorem Tells.key {row : FlowChildRecord V} {entry : SettledEntry A C}
    (h : Tells flow exitSchema row entry) : entry.key = row.childKey := by
  cases h <;> rfl

theorem Tells.outcome {row : FlowChildRecord V} {entry : SettledEntry A C}
    (h : Tells flow exitSchema row entry) : row.status = entry.outcome.toChildStatus := by
  cases h <;> assumption

/-- A row that a worker wrote decodes to its own entry, and only a pending one to none. -/
theorem decodeRow_written {row : FlowChildRecord V} (h : Written flow exitSchema row) :
    (row.status = .pending ∧ decodeRow flow exitSchema row = .ok none) ∨
      ∃ entry, decodeRow flow exitSchema row = .ok (some entry) ∧ Tells flow exitSchema row entry := by
  obtain ⟨member, hmember⟩ := h.declared
  unfold decodeRow
  cases hstatus : row.status with
  | pending => exact .inl ⟨rfl, rfl⟩
  | cancelled => exact .inr ⟨_, rfl, .cancelled hstatus⟩
  | completed =>
    right
    obtain ⟨exit, hexit, hdecodes⟩ := h.completed hstatus
    obtain ⟨value, hvalue⟩ := hdecodes member hmember
    refine ⟨_, ?_, .completed hstatus hmember hexit hvalue⟩
    simp only [hexit, hmember, hvalue, Except.map]
  | failed =>
    right
    cases hexit : row.exit with
    | none => exact ⟨_, rfl, .absent hstatus hexit⟩
    | some exit =>
      obtain ⟨cause, hcause⟩ := h.failed hstatus exit hexit member hmember
      refine ⟨_, ?_, .failed hstatus hmember hexit hcause⟩
      simp only [hmember, hcause, Except.map]

/-! ## A walk over the pages -/

/-- What a row adds. -/
def settledEntry (flow : FlowDefinition P V)
    (exitSchema : MemberJob P V → V → Except String (Exit A C)) (row : FlowChildRecord V) :
    Option (SettledEntry A C) :=
  (decodeRow flow exitSchema row).toOption.join

theorem settledEntry_eq_some {row : FlowChildRecord V} (h : Written flow exitSchema row)
    {entry : SettledEntry A C} (hentry : settledEntry flow exitSchema row = some entry) :
    Tells flow exitSchema row entry := by
  rcases decodeRow_written h with ⟨-, hnone⟩ | ⟨entry', hsome, htells⟩
  · rw [settledEntry, hnone] at hentry
    cases hentry
  · rw [settledEntry, hsome] at hentry
    cases hentry
    exact htells

theorem settledEntry_of_settled {row : FlowChildRecord V} (h : Written flow exitSchema row)
    (hsettled : row.status ≠ .pending) :
    ∃ entry, settledEntry flow exitSchema row = some entry ∧ Tells flow exitSchema row entry := by
  rcases decodeRow_written h with ⟨hpending, -⟩ | ⟨entry, hsome, htells⟩
  · exact absurd hpending hsettled
  · refine ⟨entry, ?_, htells⟩
    rw [settledEntry, hsome]
    rfl

theorem mapM_decodeRow {rows : List (FlowChildRecord V)}
    (h : ∀ row ∈ rows, Written flow exitSchema row) :
    rows.mapM (decodeRow flow exitSchema) = .ok (rows.map (settledEntry flow exitSchema)) := by
  induction rows with
  | nil => rfl
  | cons row rows ih =>
    have hrow : decodeRow flow exitSchema row = .ok (settledEntry flow exitSchema row) := by
      rcases decodeRow_written (h row List.mem_cons_self) with ⟨-, hok⟩ | ⟨entry, hok, -⟩ <;>
        rw [settledEntry, hok] <;> rfl
    rw [List.mapM_cons, hrow, ih fun row' hrow' => h row' (List.mem_cons_of_mem _ hrow')]
    rfl

theorem decodePage_written {page : ChildPage V} (h : ∀ row ∈ page.items, Written flow exitSchema row) :
    decodePage flow exitSchema page =
      .ok (page.items.filterMap (settledEntry flow exitSchema), page.cursor) := by
  rw [decodePage, mapM_decodeRow h]
  simp [Except.map, List.filterMap_map]

/-- The buckets after the entries of a list. -/
def Collected.of (entries : List (SettledEntry A C)) : Collected A C where
  completed := entries.filter fun entry => decide (entry.outcome = .completed)
  failed := entries.filter fun entry => decide (entry.outcome = .failed)
  cancelled := entries.filter fun entry => decide (entry.outcome = .cancelled)

theorem Collected.foldl_push (entries more : List (SettledEntry A C)) :
    more.foldl Collected.push (Collected.of entries) = Collected.of (entries ++ more) := by
  induction more generalizing entries with
  | nil => rw [List.foldl_nil, List.append_nil]
  | cons entry more ih =>
    have hpush : (Collected.of entries).push entry = Collected.of (entries ++ [entry]) := by
      unfold Collected.push Collected.of
      cases hentry : entry.outcome <;> simp [hentry]
    rw [List.foldl_cons, hpush, ih, List.append_assoc, List.singleton_append]

/-- A store that serves the rows of a flow by keyset pagination. -/
structure ServesRows (r : String → String → Prop) [DecidableRel r] (limit : ℕ)
    (rows : List (FlowChildRecord V)) (read : Option String → ChildPage V) : Prop where
  items : ∀ cursor, (read cursor).items = (Paging.page r (·.childKey) limit rows cursor).items
  cursor : ∀ cursor, (read cursor).cursor = (Paging.page r (·.childKey) limit rows cursor).next

variable {r : String → String → Prop} [DecidableRel r] {limit : ℕ}
  {rows : List (FlowChildRecord V)} {read : Option String → ChildPage V}

theorem ServesRows.decodePage (hread : ServesRows r limit rows read)
    (h : ∀ row ∈ rows, Written flow exitSchema row) (cursor : Option String) :
    decodePage flow exitSchema (read cursor) =
      .ok ((Paging.page r (·.childKey) limit rows cursor).items.filterMap
        (settledEntry flow exitSchema), (Paging.page r (·.childKey) limit rows cursor).next) := by
  rw [decodePage_written, hread.items, hread.cursor]
  intro row hrow
  rw [hread.items] at hrow
  exact h row (Paging.mem_page hrow).1

/-- A page without settled rows does not end the stream: it goes on as the pages do. -/
theorem paginate_drain (hread : ServesRows r limit rows read)
    (h : ∀ row ∈ rows, Written flow exitSchema row) {fuel : ℕ} {cursor : Option String}
    {pages : List (Paging.Page (FlowChildRecord V) String)}
    (hdrain : Paging.drain r (·.childKey) limit rows fuel cursor = some pages) :
    paginate (fun cursor => decodePage flow exitSchema (read cursor)) fuel cursor =
      some ((pages.flatMap (·.items)).filterMap (settledEntry flow exitSchema), none) := by
  induction fuel generalizing cursor pages with
  | zero => cases hdrain
  | succ fuel ih =>
    simp only [Paging.drain] at hdrain
    simp only [paginate, hread.decodePage h cursor]
    cases hnext : (Paging.page r (·.childKey) limit rows cursor).next with
    | none =>
      rw [hnext] at hdrain
      cases hdrain
      simp
    | some next =>
      rw [hnext] at hdrain
      obtain ⟨rest, hrest, rfl⟩ := Option.map_eq_some_iff.mp hdrain
      simp only [ih hrest, Option.map_some, List.flatMap_cons, List.filterMap_append]

theorem collectAll_drain (hread : ServesRows r limit rows read)
    (h : ∀ row ∈ rows, Written flow exitSchema row) {fuel : ℕ} {cursor : Option String}
    {pages : List (Paging.Page (FlowChildRecord V) String)}
    (hdrain : Paging.drain r (·.childKey) limit rows fuel cursor = some pages)
    (entries : List (SettledEntry A C)) :
    collectAll (fun cursor => decodePage flow exitSchema (read cursor)) fuel cursor
        (Collected.of entries) =
      some (.ok (Collected.of
        (entries ++ (pages.flatMap (·.items)).filterMap (settledEntry flow exitSchema)))) := by
  induction fuel generalizing cursor pages entries with
  | zero => cases hdrain
  | succ fuel ih =>
    simp only [Paging.drain] at hdrain
    simp only [collectAll, hread.decodePage h cursor]
    cases hnext : (Paging.page r (·.childKey) limit rows cursor).next with
    | none =>
      rw [hnext] at hdrain
      cases hdrain
      simp [Collected.foldl_push]
    | some next =>
      rw [hnext] at hdrain
      obtain ⟨rest, hrest, rfl⟩ := Option.map_eq_some_iff.mp hdrain
      simp only [Collected.foldl_push, ih hrest, List.flatMap_cons, List.filterMap_append,
        List.append_assoc]

/-- Both walks see the rows in order, in as many pages as the limit asks for. -/
theorem results_of_serves [IsStrictOrder String r] (hread : ServesRows r limit rows read)
    (hsorted : Paging.Sorted r (·.childKey) rows) (hlimit : 0 < limit)
    (h : ∀ row ∈ rows, Written flow exitSchema row) :
    paginate (fun cursor => decodePage flow exitSchema (read cursor))
        (max 1 (rows.length ⌈/⌉ limit)) none =
      some (rows.filterMap (settledEntry flow exitSchema), none) ∧
    collectAll (fun cursor => decodePage flow exitSchema (read cursor))
        (max 1 (rows.length ⌈/⌉ limit)) none {} =
      some (.ok (Collected.of (rows.filterMap (settledEntry flow exitSchema)))) := by
  obtain ⟨pages, hdrain, -, hserved⟩ := Paging.drain_exact hsorted hlimit none
  rw [Paging.behind_none] at hdrain hserved
  have hstream := paginate_drain hread h hdrain
  have hall := collectAll_drain hread h hdrain []
  rw [hserved] at hstream hall
  exact ⟨hstream, hall⟩

end
end EffectMq
