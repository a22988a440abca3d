import Std.Data.String.ToInt
import EffectMq.Library.CodeUnits
import EffectMq.Library.Codes
import EffectMq.Library.Paging
import EffectMq.Numbers
import EffectMq.MemoryJobStore.Records

/-! # Listing with cursors

`list` of `MemoryJobStore.ts` and the two ways its cursors are followed. On a store that does not
change the pages are the matching jobs, each once and in order. On a store that changes between the
requests, in the order of `enqueuedAt`, a job that stays and keeps matching is served once, and only
a job that was deleted and enqueued again can be served a second time.

`list` is keyset pagination (`Library/Paging.lean`) with the key `(order value, id)`; the cursor text
is that key, written and read back. The operation is defined for rows whose run time may be
`Infinity`, as a delay of `Duration.infinity` makes it. There the pages go wrong
(`endless_jobs_skipped`); the run times of the store are finite.
-/

namespace EffectMq.Memory
set_option autoImplicit false
set_option maxHeartbeats 250000

open Transition

variable {V : Type}

/-! ## The operation -/

def metadataMatches (record filter : List (String × String)) : Bool :=
  filter.all fun entry => decide (record.lookup entry.1 = some entry.2)

/-- `<` on strings. -/
def jsLt (a b : String) : Prop := CodeUnits.units a < CodeUnits.units b

instance (a b : String) : Decidable (jsLt a b) := inferInstanceAs (Decidable (_ < _))

def compareIds (a b : JobId) : ℤ := if jsLt a b then -1 else if jsLt b a then 1 else 0

/-- A parsed cursor. -/
structure ListCursor where
  value : JsNumber
  id : JobId
  deriving DecidableEq

/-- The order value in a template string. -/
def valueText : WithTop ℤ → String
  | none => "Infinity"
  | some value => Int.repr value

def cursorText (value : WithTop ℤ) (id : JobId) : String := valueText value ++ ":" ++ id

/-- The text is split at the first `:`. Without one, `slice(0, -1)` is the value, which leaves half a
character when the last one takes two code units. -/
def parseCursor (text : String) : ListCursor :=
  match text.toList.dropWhile (· ≠ ':') with
  | _ :: id =>
    ⟨.ofText (String.ofList (text.toList.takeWhile (· ≠ ':'))), String.ofList id⟩
  | [] =>
    ⟨if text.toList.getLast?.any fun c => decide (65535 < c.toNat) then .nan
      else .ofText (String.ofList text.toList.dropLast), text⟩

/-- Everything at or before the cursor is excluded. -/
def ListCursor.admits (cursor : ListCursor) (descending : Bool) (value : JsNumber) (id : JobId) :
    Prop :=
  if descending then value.lt cursor.value = true ∨ value.strictEq cursor.value = true ∧ jsLt id cursor.id
  else cursor.value.lt value = true ∨ value.strictEq cursor.value = true ∧ jsLt cursor.id id

instance (cursor : ListCursor) (descending : Bool) (value : JsNumber) (id : JobId) :
    Decidable (cursor.admits descending value id) := by
  unfold ListCursor.admits
  infer_instance

/-- The filters of a request. -/
def listAdmits (options : ListOptions) (job : MemJob V) : Bool :=
  options.queue.all (fun queue => decide (job.queue = queue)) &&
    options.name.all (fun name => decide (job.name = name)) &&
    options.states.all (fun states => decide (job.state ∈ states)) &&
    options.metadata.all (metadataMatches job.metadata)

section Rows

-- Rows of jobs; their run times may be infinite.
variable {ρ : Type} (job : ρ → MemJob V) (runAt : ρ → WithTop ℤ)

/-- Jobs missing the field sort as 0. -/
def rowValue (orderBy : ListField) (row : ρ) : WithTop ℤ :=
  match orderBy with
  | .enqueuedAt => (job row).enqueuedAt
  | .runAt => runAt row
  | .finishedAt => (job row).finishedAt.getD 0

/-- The comparator of the sort. -/
def compareRows (orderBy : ListField) (descending : Bool) (a b : ρ) : JsNumber :=
  let value row := JsNumber.ofTime (rowValue job runAt orderBy row)
  let byValue := if descending then (value b).sub (value a) else (value a).sub (value b)
  if byValue.strictEq (.finite 0) = false then byValue
  else if descending then .finite (compareIds (job b).id (job a).id)
  else .finite (compareIds (job a).id (job b).id)

/-- A sort takes a comparison that is `NaN` for 0. -/
def RowNotAfter (orderBy : ListField) (descending : Bool) (a b : ρ) : Prop :=
  JsNumber.lt (.finite 0) (compareRows job runAt orderBy descending a b) = false

instance (orderBy : ListField) (descending : Bool) :
    DecidableRel (RowNotAfter job runAt orderBy descending) := fun _ _ =>
  inferInstanceAs (Decidable (_ = _))

/-- The matching rows in list order. -/
def sortRows (rows : List ρ) (options : ListOptions) : List ρ :=
  (rows.filter fun row => listAdmits options (job row)).insertionSort
    (RowNotAfter job runAt options.field options.descending)

def pastCursor (options : ListOptions) (cursor : Option ListCursor) (row : ρ) : Bool :=
  match cursor with
  | none => true
  | some cursor =>
    decide (cursor.admits options.descending (.ofTime (rowValue job runAt options.field row))
      (job row).id)

/-- The page cut from the rows past the cursor. -/
def cutPage (options : ListOptions) (matched : List ρ) : ListResult V :=
  let limit := options.pageSize
  { items := (matched.take limit).map fun row => snapshot (job row)
    cursor :=
      if limit < matched.length then
        (matched[min limit matched.length - 1]?).map fun lastJob =>
          cursorText (rowValue job runAt options.field lastJob) (job lastJob).id
      else none }

def listRows (rows : List ρ) (options : ListOptions) : ListResult V :=
  let cursor := options.cursor.map parseCursor
  cutPage job runAt options
    ((sortRows job runAt rows options).filter (pastCursor job runAt options cursor))

end Rows

def list (s : Store V) (options : ListOptions) : ListResult V :=
  listRows id (fun job => job.runAt) s.jobs.values options

/-- Request pages until one carries no cursor. -/
def drainPages (page : Option String → ListResult V) :
    ℕ → Option String → Option (List (ListResult V))
  | 0, _ => none
  | fuel + 1, cursor =>
    match (page cursor).cursor with
    | none => some [page cursor]
    | some next => (drainPages page fuel (some next)).map (page cursor :: ·)

/-- `drainList` of the test store. -/
def drainList (s : Store V) (options : ListOptions) :
    ℕ → Option String → Option (List (ListResult V)) :=
  drainPages fun cursor => list s { options with cursor }

/-! ## The order and the cursor text -/

/-- The order value of a stored job. -/
def orderValue (orderBy : ListField) (job : JobRecord V) : ℤ :=
  match orderBy with
  | .enqueuedAt => job.enqueuedAt
  | .runAt => job.runAt
  | .finishedAt => job.finishedAt.getD 0

theorem rowValue_id (orderBy : ListField) (job : MemJob V) :
    rowValue id (fun job : MemJob V => (job.runAt : WithTop ℤ)) orderBy job =
      (orderValue orderBy job.toJobRecord : ℤ) := by
  cases orderBy <;> rfl

/-- The order of the stored jobs. -/
abbrev NotAfter (orderBy : ListField) (descending : Bool) : MemJob V → MemJob V → Prop :=
  RowNotAfter id (fun job => job.runAt) orderBy descending

/-- The matching jobs of a store in list order. -/
def sortedMatches (s : Store V) (options : ListOptions) : List (MemJob V) :=
  (s.jobs.values.filter (listAdmits options)).insertionSort
    (NotAfter options.field options.descending)

theorem list_eq (s : Store V) (options : ListOptions) :
    list s options = cutPage id (fun job => job.runAt) options
      ((sortedMatches s options).filter
        (pastCursor id (fun job => job.runAt) options (options.cursor.map parseCursor))) := rfl

/-- What a job is ordered by. -/
abbrev ListKey := ℤ × JobId

def recordKey (orderBy : ListField) (job : JobRecord V) : ListKey := (orderValue orderBy job, job.id)

def listKey (orderBy : ListField) (job : MemJob V) : ListKey := recordKey orderBy job.toJobRecord

/-- The ascending order of keys. -/
def KeyLt (p q : ListKey) : Prop := p.1 < q.1 ∨ p.1 = q.1 ∧ jsLt p.2 q.2

/-- The list order; descending turns the id tiebreak as well. -/
def Precedes (descending : Bool) (p q : ListKey) : Prop := if descending then KeyLt q p else KeyLt p q

instance (descending : Bool) : DecidableRel (Precedes descending) := fun p q => by
  unfold Precedes KeyLt
  infer_instance

theorem jsLt_irrefl (a : String) : ¬ jsLt a a := lt_irrefl _

theorem jsLt_trans {a b c : String} (h : jsLt a b) (h' : jsLt b c) : jsLt a c := lt_trans h h'

theorem jsLt_trichotomy (a b : String) : jsLt a b ∨ a = b ∨ jsLt b a := by
  rcases lt_trichotomy (CodeUnits.units a) (CodeUnits.units b) with h | h | h
  · exact .inl h
  · exact .inr (.inl (CodeUnits.units_injective h))
  · exact .inr (.inr h)

theorem KeyLt.irrefl (p : ListKey) : ¬ KeyLt p p := by
  simp [KeyLt, jsLt_irrefl]

theorem KeyLt.trans {p q t : ListKey} (h : KeyLt p q) (h' : KeyLt q t) : KeyLt p t := by
  rcases h with h | ⟨h, hid⟩ <;> rcases h' with h' | ⟨h', hid'⟩
  · exact .inl (h.trans h')
  · exact .inl (h' ▸ h)
  · exact .inl (h ▸ h')
  · exact .inr ⟨h.trans h', jsLt_trans hid hid'⟩

theorem keyLt_trichotomy (p q : ListKey) : KeyLt p q ∨ p = q ∨ KeyLt q p := by
  rcases lt_trichotomy p.1 q.1 with h | h | h
  · exact .inl (.inl h)
  · rcases jsLt_trichotomy p.2 q.2 with hid | hid | hid
    · exact .inl (.inr ⟨h, hid⟩)
    · exact .inr (.inl (Prod.ext h hid))
    · exact .inr (.inr (.inr ⟨h.symm, hid⟩))
  · exact .inr (.inr (.inl h))

instance (descending : Bool) : IsStrictOrder ListKey (Precedes descending) where
  irrefl p := by
    cases descending <;> exact KeyLt.irrefl p
  trans p q t h h' := by
    cases descending
    · exact KeyLt.trans h h'
    · exact KeyLt.trans h' h

theorem precedes_trichotomy (descending : Bool) (p q : ListKey) :
    Precedes descending p q ∨ p = q ∨ Precedes descending q p := by
  cases descending
  · exact keyLt_trichotomy p q
  · rcases keyLt_trichotomy p q with h | h | h
    · exact .inr (.inr h)
    · exact .inr (.inl h)
    · exact .inl h

theorem compareIds_nonpos (a b : JobId) : compareIds a b ≤ 0 ↔ jsLt a b ∨ a = b := by
  unfold compareIds
  rcases jsLt_trichotomy a b with h | rfl | h
  · simp [h]
  · simp [jsLt_irrefl]
  · have hba : ¬ jsLt a b := fun hab => jsLt_irrefl a (jsLt_trans hab h)
    have hne : a ≠ b := fun hab => jsLt_irrefl a (hab ▸ h)
    simp [h, hba, hne]

/-- The comparator sorts in list order. -/
theorem notAfter_iff {orderBy : ListField} {descending : Bool} {a b : MemJob V} :
    NotAfter orderBy descending a b ↔
      Precedes descending (listKey orderBy a) (listKey orderBy b) ∨
        listKey orderBy a = listKey orderBy b := by
  have hasc : ∀ a b : MemJob V, NotAfter orderBy false a b ↔
      KeyLt (listKey orderBy a) (listKey orderBy b) ∨ listKey orderBy a = listKey orderBy b := by
    intro a b
    simp only [NotAfter, RowNotAfter, compareRows, rowValue_id, JsNumber.ofTime_coe,
      JsNumber.sub_finite, JsNumber.strictEq_finite, decide_eq_false_iff_not, Bool.false_eq_true,
      if_false, id_eq]
    simp only [KeyLt, listKey, recordKey, Prod.ext_iff]
    generalize orderValue orderBy a.toJobRecord = m
    generalize orderValue orderBy b.toJobRecord = n
    have hzero : ((m : ℚ) - n = 0) ↔ m = n := by rw [sub_eq_zero, Int.cast_inj]
    split
    · rename_i hne
      rw [hzero] at hne
      have hpos : (0 : ℚ) < m - n ↔ n < m := by rw [sub_pos, Int.cast_lt]
      rw [JsNumber.lt_finite, decide_eq_false_iff_not, hpos]
      omega
    · rename_i heq
      rw [not_not, hzero] at heq
      have hpos : (0 : ℚ) < (compareIds a.id b.id : ℤ) ↔ 0 < compareIds a.id b.id := Int.cast_pos
      rw [JsNumber.lt_finite, decide_eq_false_iff_not, hpos, not_lt, compareIds_nonpos]
      simp [heq]
  have hturn : NotAfter orderBy true a b = NotAfter orderBy false b a := rfl
  cases descending
  · exact hasc a b
  · rw [hturn, hasc, eq_comm]
    rfl

instance (orderBy : ListField) (descending : Bool) :
    Std.Total (NotAfter orderBy descending : MemJob V → MemJob V → Prop) where
  total a b := by
    rw [notAfter_iff, notAfter_iff]
    rcases precedes_trichotomy descending (listKey orderBy a) (listKey orderBy b) with h | h | h
    · exact .inl (.inl h)
    · exact .inl (.inr h)
    · exact .inr (.inl h)

instance (orderBy : ListField) (descending : Bool) :
    IsTrans (MemJob V) (NotAfter orderBy descending) where
  trans a b c h h' := by
    rw [notAfter_iff] at h h' ⊢
    rcases h with h | h
    · rcases h' with h' | h'
      · exact .inl (trans_of _ h h')
      · exact .inl (h' ▸ h)
    · rw [h]
      exact h'

theorem notMem_int_repr (value : ℤ) : ':' ∉ (Int.repr value).toList := by
  intro h
  rcases Codes.digit_or_minus h with hdigit | hminus
  · exact absurd hdigit (by decide)
  · exact absurd hminus (by decide)

/-- A cursor reads back as its key: no separator stands before the first one, whatever the id. -/
theorem parseCursor_cursorText (value : ℤ) (id : JobId) :
    parseCursor (cursorText value id) = ⟨.finite value, id⟩ := by
  have htext : (cursorText value id).toList = (Int.repr value).toList ++ ':' :: id.toList := by
    rw [cursorText, show valueText value = Int.repr value from rfl]
    simp [String.toList_append]
  have hpass : ∀ c ∈ (Int.repr value).toList, decide (c ≠ ':') = true := fun c hc =>
    decide_eq_true fun h => notMem_int_repr value (h ▸ hc)
  unfold parseCursor
  rw [htext, List.dropWhile_append_of_pos hpass, List.takeWhile_append_of_pos hpass]
  simp [JsNumber.ofText_repr]

/-- The cursor filter keeps what lies strictly behind the cursor. -/
theorem cursor_admits (descending : Bool) (p q : ListKey) :
    (⟨.finite p.1, p.2⟩ : ListCursor).admits descending (.finite q.1) q.2 ↔
      Precedes descending p q := by
  simp only [ListCursor.admits, Precedes, KeyLt, JsNumber.lt_finite, JsNumber.strictEq_finite,
    decide_eq_true_eq, Int.cast_lt, Int.cast_inj]
  split
  · rfl
  · rw [eq_comm (a := q.1)]

/-! ## `list` is keyset pagination -/

theorem Core.Keyed.ids_nodup {c : Core V} (hk : c.Keyed) : (c.jobs.values.map (·.id)).Nodup := by
  have hids : c.jobs.values.map (·.id) = c.jobs.keys := by
    simp only [JsMap.values, JsMap.keys, List.map_map]
    apply List.map_congr_left
    rintro ⟨id, job⟩ he
    exact hk id job (JsMap.get?_eq_some.mpr he)
  rw [hids]
  exact c.jobs.nodup_keys

theorem mem_sortedMatches {s : Store V} (hk : s.toCore.Keyed) {options : ListOptions}
    {job : MemJob V} :
    job ∈ sortedMatches s options ↔
      s.jobs.get? job.id = some job ∧ listAdmits options job = true := by
  rw [sortedMatches, List.mem_insertionSort, List.mem_filter, JsMap.mem_values]
  constructor
  · rintro ⟨⟨id, hj⟩, ha⟩
    obtain rfl := hk _ _ hj
    exact ⟨hj, ha⟩
  · exact fun ⟨hj, ha⟩ => ⟨⟨_, hj⟩, ha⟩

theorem sortedMatches_ids {s : Store V} (hk : s.toCore.Keyed) (options : ListOptions) :
    ((sortedMatches s options).map (·.id)).Nodup := by
  have hperm := List.perm_insertionSort (NotAfter options.field options.descending)
    (s.jobs.values.filter (listAdmits options))
  rw [sortedMatches, (hperm.map _).nodup_iff]
  exact hk.ids_nodup.sublist (List.filter_sublist.map _)

theorem sortedMatches_sorted {s : Store V} (hk : s.toCore.Keyed) (options : ListOptions) :
    Paging.Sorted (Precedes options.descending) (listKey options.field)
      (sortedMatches s options) := by
  have hsorted := List.pairwise_insertionSort (NotAfter options.field options.descending)
    (s.jobs.values.filter (listAdmits options))
  refine (hsorted.and (List.pairwise_map.mp (sortedMatches_ids hk options))).imp ?_
  rintro a b ⟨hle, hne⟩
  rcases notAfter_iff.mp hle with h | h
  · exact h
  · exact absurd (congrArg Prod.snd h) hne

def keyText (key : ListKey) : String := cursorText key.1 key.2

def pageResult (page : Paging.Page (MemJob V) ListKey) : ListResult V where
  items := page.items.map snapshot
  cursor := page.next.map keyText

/-- A request with the cursor a page returned serves the next page. -/
theorem list_eq_page (s : Store V) (options : ListOptions) (cursor : Option ListKey) :
    list s { options with cursor := cursor.map keyText } =
      pageResult (Paging.page (Precedes options.descending) (listKey options.field)
        options.pageSize (sortedMatches s options) cursor) := by
  have hfilter : (sortedMatches s options).filter
      (pastCursor id (fun job => job.runAt) options ((cursor.map keyText).map parseCursor)) =
      Paging.behind (Precedes options.descending) (listKey options.field) cursor
        (sortedMatches s options) := by
    apply List.filter_congr
    intro job _
    cases cursor with
    | none => exact (decide_eq_true fun _ h => by cases h).symm
    | some key =>
      have hadmits := cursor_admits options.descending key (listKey options.field job)
      simp only [pastCursor, Option.map_some, keyText, parseCursor_cursorText, rowValue_id,
        JsNumber.ofTime_coe, id_eq]
      rw [decide_eq_decide]
      exact ⟨fun h k hk => by cases hk; exact hadmits.mp h, fun h => hadmits.mpr (h key rfl)⟩
  rw [list_eq]
  change cutPage id _ options ((sortedMatches s options).filter
    (pastCursor id _ options ((cursor.map keyText).map parseCursor))) = _
  rw [hfilter]
  unfold cutPage pageResult Paging.page
  simp only [rowValue_id, id_eq]
  split
  · rename_i hlt
    rw [Nat.min_eq_left hlt.le, Option.map_map]
    rfl
  · rfl

/-! ## The other orders do not read the run times -/

section Rows

variable {ρ : Type} {job : ρ → MemJob V} {runAt runAt' : ρ → WithTop ℤ}

theorem rowValue_congr {orderBy : ListField} (h : orderBy ≠ .runAt) :
    rowValue job runAt orderBy = rowValue job runAt' orderBy := by
  funext row
  cases orderBy with
  | runAt => exact absurd rfl h
  | _ => rfl

theorem rowNotAfter_congr {orderBy : ListField} (h : orderBy ≠ .runAt) (descending : Bool) :
    RowNotAfter job runAt orderBy descending = RowNotAfter job runAt' orderBy descending := by
  unfold RowNotAfter compareRows
  rw [rowValue_congr h]

theorem listRows_congr (options : ListOptions) (h : options.field ≠ .runAt) (rows : List ρ) :
    listRows job runAt rows options = listRows job runAt' rows options := by
  have hsort : sortRows job runAt rows options = sortRows job runAt' rows options := by
    unfold sortRows
    congr 1
    exact rowNotAfter_congr h options.descending
  have hpast : ∀ cursor, pastCursor job runAt options cursor = pastCursor job runAt' options cursor := by
    intro cursor
    unfold pastCursor
    rw [rowValue_congr h]
  unfold listRows cutPage
  dsimp only
  rw [hsort, hpast, rowValue_congr h]

end Rows

/-! ## Walking a store that does not change -/

theorem pageSize_pos (options : ListOptions) : 0 < options.pageSize := by
  unfold ListOptions.pageSize
  omega

theorem drainList_eq_drain (s : Store V) (options : ListOptions) (fuel : ℕ)
    (cursor : Option ListKey) :
    drainList s options fuel (cursor.map keyText) =
      (Paging.drain (Precedes options.descending) (listKey options.field) options.pageSize
        (sortedMatches s options) fuel cursor).map (·.map pageResult) := by
  induction fuel generalizing cursor with
  | zero => rfl
  | succ fuel ih =>
    simp only [drainList] at ih ⊢
    simp only [drainPages, Paging.drain, list_eq_page]
    cases hnext : (Paging.page (Precedes options.descending) (listKey options.field)
        options.pageSize (sortedMatches s options) cursor).next with
    | none => simp [pageResult, hnext]
    | some key =>
      have hrest := ih (some key)
      simp only [Option.map_some] at hrest
      simp only [pageResult, hnext, Option.map_some, hrest, Option.map_map]
      congr 1
      funext pages
      simp [pageResult, hnext]

/-- How many jobs match. -/
def matchCount (s : Store V) (options : ListOptions) : ℕ :=
  s.jobs.values.countP (listAdmits options)

/-- How many pages a walk takes: `⌈n / limit⌉`, and at least one. -/
def pageCount (s : Store V) (options : ListOptions) : ℕ :=
  max 1 (matchCount s options ⌈/⌉ options.pageSize)

theorem length_sortedMatches (s : Store V) (options : ListOptions) :
    (sortedMatches s options).length = matchCount s options := by
  rw [sortedMatches, List.length_insertionSort, matchCount, List.countP_eq_length_filter]


/-- What the pages of a whole walk are: the matching jobs, each once, in list order. -/
structure ExactPages (s : Store V) (options : ListOptions) (pages : List (ListResult V)) : Prop where
  count : pages.length = pageCount s options
  members : ∀ record, record ∈ pages.flatMap (·.items) ↔
    ∃ job, s.jobs.get? record.id = some job ∧ listAdmits options job = true ∧ record = snapshot job
  once : ((pages.flatMap (·.items)).map (·.id)).Nodup
  ordered : (pages.flatMap (·.items)).Pairwise fun a b =>
    Precedes options.descending (recordKey options.field a) (recordKey options.field b)

theorem drainList_exact {s : Store V} (hk : s.toCore.Keyed) (options : ListOptions) :
    ∃ pages, drainList s options (pageCount s options) none = some pages ∧
      ExactPages s options pages := by
  have hsorted := sortedMatches_sorted hk options
  obtain ⟨pages, hdrain, hcount, hserved⟩ :=
    Paging.drain_exact hsorted (pageSize_pos options) none
  rw [Paging.behind_none] at hserved
  rw [Paging.behind_none, length_sortedMatches] at hdrain hcount
  have hitems : (pages.map pageResult).flatMap (·.items) = (sortedMatches s options).map snapshot := by
    rw [← hserved, List.map_flatMap, List.flatMap_map]
    rfl
  have hfollow := drainList_eq_drain s options (pageCount s options) none
  rw [Option.map_none, pageCount, hdrain, Option.map_some] at hfollow
  refine ⟨pages.map pageResult, hfollow, ?_, ?_, ?_, ?_⟩
  · rw [List.length_map, hcount]
    rfl
  · intro record
    rw [hitems, List.mem_map]
    constructor
    · rintro ⟨job, hj, rfl⟩
      obtain ⟨hget, hadmits⟩ := (mem_sortedMatches hk).mp hj
      exact ⟨job, hget, hadmits, rfl⟩
    · rintro ⟨job, hget, hadmits, rfl⟩
      exact ⟨job, (mem_sortedMatches hk).mpr ⟨hget, hadmits⟩, rfl⟩
  · rw [hitems, List.map_map]
    exact sortedMatches_ids hk options
  · rw [hitems, List.pairwise_map]
    exact hsorted

/-! ## Walking a store that changes between the requests -/

/-- An operation leaves the enqueue time of a job that it does not delete. -/
theorem exec_enqueuedAt {s : Store V} (hk : s.toCore.Keyed) (now : Millis) (op : Op V) {id : JobId}
    {job job' : MemJob V} (hj : s.jobs.get? id = some job)
    (hj' : (exec s now op).jobs.get? id = some job') : job'.enqueuedAt = job.enqueuedAt := by
  let I : View V → Prop := fun v => ∀ job', v.job = some job' → job'.enqueuedAt = job.enqueuedAt
  have hI : I ((exec s now op).toCore.view id) := by
    refine exec_view_of_job hk now op hj (I := I) ?_ fun job' h => ?_
    · intro l v v' _ hins hstep hv job' hj'
      cases hstep with
      | same | rearm | cascade => exact hv job' hj'
      | insert => exact absurd trivial (hins rfl)
      | promote | fanOut | refan =>
        have h := hv _ rfl
        cases hj'
        exact h
      | move m =>
        have h := hv _ rfl
        cases hj'
        cases m <;> exact h
      | finish e | settle e =>
        have h := hv _ rfl
        cases hj'
        cases e <;> exact h
      | report =>
        obtain ⟨job, hj, rfl⟩ := Option.map_eq_some_iff.mp hj'
        exact hv job hj
      | remove | prune => cases hj'
    · obtain rfl := Option.some.inj (hj.symm.trans h)
      rfl
  exact hI job' hj'

/-- A client that follows the cursors while the store goes on. -/
structure Walk (V : Type) where
  store : Store V
  cursor : Option String
  pages : List (ListResult V)
  ended : Bool

def Walk.start (s : Store V) : Walk V := ⟨s, none, [], false⟩

/-- The next request; the walk ends with the page that carries no cursor. -/
def Walk.turn (w : Walk V) (options : ListOptions) : Walk V :=
  let page := list w.store { options with cursor := w.cursor }
  { w with cursor := page.cursor, pages := w.pages ++ [page], ended := page.cursor.isNone }

inductive WalkEvent (V : Type)
  | call (now : Millis) (op : Op V)
  | page

inductive WalkStep (options : ListOptions) : Walk V → WalkEvent V → Walk V → Prop
  | call (w : Walk V) (now : Millis) (op : Op V) :
      WalkStep options w (.call now op) { w with store := exec w.store now op }
  | page (w : Walk V) (h : w.ended = false) : WalkStep options w .page (w.turn options)

/-- The ids on the page a request would return now. -/
def Walk.pageIds (w : Walk V) (options : ListOptions) : List JobId :=
  (list w.store { options with cursor := w.cursor }).items.map (·.id)

def Walk.served (w : Walk V) : List JobId := w.pages.flatMap fun page => page.items.map (·.id)

/-- The job is stored and matches. -/
def Walk.Matches (options : ListOptions) (id : JobId) (w : Walk V) : Prop :=
  ∃ job, w.store.jobs.get? id = some job ∧ listAdmits options job = true

/-- The walk stands at a cursor the store wrote, or at its first request. -/
structure Walk.At (w : Walk V) (place : Option ListKey) : Prop where
  keyed : w.store.toCore.Keyed
  text : w.cursor = place.map keyText

/-- The page a request from `place` is answered with. -/
def Walk.page (w : Walk V) (options : ListOptions) (place : Option ListKey) :
    Paging.Page (MemJob V) ListKey :=
  Paging.page (Precedes options.descending) (listKey options.field) options.pageSize
    (sortedMatches w.store options) place

theorem Walk.At.list_eq {w : Walk V} {place : Option ListKey} (h : w.At place)
    (options : ListOptions) :
    list w.store { options with cursor := w.cursor } = pageResult (w.page options place) := by
  rw [h.text]
  exact list_eq_page w.store options place

theorem Walk.At.pageIds {w : Walk V} {place : Option ListKey} (h : w.At place)
    (options : ListOptions) : w.pageIds options = (w.page options place).items.map (·.id) := by
  rw [Walk.pageIds, h.list_eq options, pageResult, List.map_map]
  rfl

theorem Walk.At.turn {w : Walk V} {place : Option ListKey} (h : w.At place)
    (options : ListOptions) : (w.turn options).At (w.page options place).next where
  keyed := h.keyed
  text := by
    simp only [Walk.turn, h.list_eq options, pageResult]

theorem Walk.At.turn_ended {w : Walk V} {place : Option ListKey} (h : w.At place)
    (options : ListOptions) : (w.turn options).ended = (w.page options place).next.isNone := by
  simp only [Walk.turn, h.list_eq options, pageResult, Option.isNone_map]

theorem turn_served (w : Walk V) (options : ListOptions) :
    (w.turn options).served = w.served ++ w.pageIds options := by
  simp [Walk.served, Walk.turn, Walk.pageIds]

/-- A page serves no job twice. -/
theorem Walk.At.pageIds_nodup {w : Walk V} {place : Option ListKey} (h : w.At place)
    (options : ListOptions) : (w.pageIds options).Nodup := by
  rw [h.pageIds options]
  have hsub : (w.page options place).items.Sublist (sortedMatches w.store options) :=
    (List.take_sublist _ _).trans List.filter_sublist
  exact (sortedMatches_ids h.keyed options).sublist (hsub.map _)

/-- Which stored jobs are on the page. -/
theorem Walk.At.mem_pageIds {w : Walk V} {place : Option ListKey} (h : w.At place)
    (options : ListOptions) {id : JobId} {job : MemJob V} (hj : w.store.jobs.get? id = some job) :
    id ∈ w.pageIds options ↔ job ∈ (w.page options place).items := by
  rw [h.pageIds options, List.mem_map]
  constructor
  · rintro ⟨other, hother, rfl⟩
    have hget := ((mem_sortedMatches h.keyed).mp (Paging.mem_page hother).1).1
    obtain rfl := Option.some.inj (hj.symm.trans hget)
    exact hother
  · exact fun hmem => ⟨job, hmem, h.keyed _ _ hj⟩

/-- What a page serves is in the store. -/
theorem Walk.At.holds {w : Walk V} {place : Option ListKey} (h : w.At place)
    (options : ListOptions) {id : JobId} (hid : id ∈ w.pageIds options) :
    ∃ job, w.store.jobs.get? id = some job := by
  rw [h.pageIds options, List.mem_map] at hid
  obtain ⟨job, hmem, rfl⟩ := hid
  exact ⟨job, ((mem_sortedMatches h.keyed).mp (Paging.mem_page hmem).1).1⟩

/-- The walk has gone past a key: it has ended, or its cursor is not in front of the key. -/
def Walk.Passed (options : ListOptions) (key : ListKey) (w : Walk V) : Prop :=
  ∃ place, w.At place ∧ (w.ended = true ∨
    ∃ at', place = some at' ∧ ¬ Precedes options.descending at' key)

/-- The key is still to come. -/
def Walk.Awaits (options : ListOptions) (key : ListKey) (w : Walk V) : Prop :=
  ∃ place, w.At place ∧ w.ended = false ∧
    ∀ at', place = some at' → Precedes options.descending at' key

theorem Walk.At.call {w : Walk V} {place : Option ListKey} (h : w.At place) (now : Millis)
    (op : Op V) : ({ w with store := exec w.store now op } : Walk V).At place :=
  ⟨exec_keyed h.keyed now op, h.text⟩

theorem Walk.Passed.step {options : ListOptions} {key : ListKey} {w w' : Walk V}
    {event : WalkEvent V} (h : w.Passed options key) (hs : WalkStep options w event w') :
    w'.Passed options key := by
  obtain ⟨place, hat, hpassed⟩ := h
  cases hs with
  | call now op => exact ⟨place, hat.call now op, hpassed⟩
  | page hopen =>
    refine ⟨_, hat.turn options, ?_⟩
    obtain ⟨at', rfl, hnot⟩ := hpassed.resolve_left (by simp [hopen])
    cases hnext : (w.page options (some at')).next with
    | none =>
      left
      rw [hat.turn_ended options, hnext]
      rfl
    | some next =>
      refine .inr ⟨next, rfl, fun hlt => hnot ?_⟩
      have hforward := Paging.page_next (sortedMatches_sorted hat.keyed options)
        (pageSize_pos options) hnext at' rfl
      exact trans_of _ hforward hlt

/-- A key that was passed is not served. -/
theorem Walk.Passed.not_served {options : ListOptions} {w : Walk V} {id : JobId} {job : MemJob V}
    (hj : w.store.jobs.get? id = some job) (h : w.Passed options (listKey options.field job))
    (hopen : w.ended = false) : id ∉ w.pageIds options := by
  obtain ⟨place, hat, hpassed⟩ := h
  obtain ⟨at', rfl, hnot⟩ := hpassed.resolve_left (by simp [hopen])
  rw [hat.mem_pageIds options hj]
  exact fun hmem => hnot ((Paging.mem_page hmem).2 at' rfl)

/-- What a page serves has been passed after it. -/
theorem Walk.At.passed_of_served {w : Walk V} {place : Option ListKey} (h : w.At place)
    {options : ListOptions} {job : MemJob V} (hmem : job ∈ (w.page options place).items) :
    (w.turn options).Passed options (listKey options.field job) := by
  refine ⟨_, h.turn options, ?_⟩
  cases hnext : (w.page options place).next with
  | none =>
    left
    rw [h.turn_ended options, hnext]
    rfl
  | some next =>
    have hsorted := sortedMatches_sorted h.keyed options
    exact .inr ⟨next, rfl, Paging.page_served hsorted (pageSize_pos options) hmem hnext⟩

/-- A key that is awaited is served with the next page or awaited still. -/
theorem Walk.Awaits.turn {options : ListOptions} {w : Walk V} {id : JobId} {job : MemJob V}
    (hj : w.store.jobs.get? id = some job) (hadmits : listAdmits options job = true)
    (h : w.Awaits options (listKey options.field job)) :
    (id ∈ w.pageIds options ∧ (w.turn options).Passed options (listKey options.field job)) ∨
      (id ∉ w.pageIds options ∧ (w.turn options).Awaits options (listKey options.field job)) := by
  obtain ⟨place, hat, hopen, hbehind⟩ := h
  have hsorted := sortedMatches_sorted hat.keyed options
  have hjid : w.store.jobs.get? job.id = some job := by
    rw [hat.keyed _ _ hj]
    exact hj
  have hmem : job ∈ sortedMatches w.store options :=
    (mem_sortedMatches hat.keyed).mpr ⟨hjid, hadmits⟩
  rw [hat.mem_pageIds options hj]
  by_cases hserved : job ∈ (w.page options place).items
  · exact .inl ⟨hserved, hat.passed_of_served hserved⟩
  · obtain ⟨next, hnext, hlt⟩ := (Paging.page_reaches hsorted (pageSize_pos options) hmem
      hbehind).resolve_left hserved
    have hnext' : (w.page options place).next = some next := hnext
    refine .inr ⟨hserved, _, hat.turn options, ?_, ?_⟩
    · rw [hat.turn_ended options, hnext']
      rfl
    · rw [hnext']
      rintro _ ⟨⟩
      exact hlt

theorem Walk.start_at {s : Store V} (hk : s.toCore.Keyed) : (Walk.start s).At none := ⟨hk, rfl⟩

theorem WalkStep.at {options : ListOptions} {w w' : Walk V} {event : WalkEvent V}
    (hs : WalkStep options w event w') (h : ∃ place, w.At place) : ∃ place, w'.At place := by
  obtain ⟨place, hat⟩ := h
  cases hs with
  | call now op => exact ⟨place, hat.call now op⟩
  | page => exact ⟨_, hat.turn options⟩

/-- The record under `id`, if there is one, was enqueued at `time`. -/
def Walk.Dated (id : JobId) (time : Millis) (w : Walk V) : Prop :=
  ∀ job, w.store.jobs.get? id = some job → job.enqueuedAt = time

theorem Walk.Dated.step {options : ListOptions} {id : JobId} {time : Millis} {w w' : Walk V}
    {event : WalkEvent V} (h : w.Dated id time) (hs : WalkStep options w event w')
    (hk : w.store.toCore.Keyed) (hheld : ∃ job, w.store.jobs.get? id = some job) :
    w'.Dated id time := by
  obtain ⟨job, hj⟩ := hheld
  cases hs with
  | call now op =>
    intro job' hj'
    rw [exec_enqueuedAt hk now op hj hj']
    exact h job hj
  | page => exact h

/-- Served once when its key was passed, not at all before. -/
def Walk.Served (options : ListOptions) (id : JobId) (time : Millis) (w : Walk V) : Prop :=
  w.Awaits options (time, id) ∧ id ∉ w.served ∨ w.Passed options (time, id) ∧ w.served.count id = 1

theorem listKey_dated {options : ListOptions} (hfield : options.field = .enqueuedAt) {w : Walk V}
    (hk : w.store.toCore.Keyed) {id : JobId} {time : Millis} (hdate : w.Dated id time)
    {job : MemJob V} (hj : w.store.jobs.get? id = some job) :
    listKey options.field job = (time, id) := by
  rw [hfield, listKey, recordKey, orderValue, hdate job hj]
  exact Prod.ext rfl (hk _ _ hj)

theorem Walk.Served.at {options : ListOptions} {id : JobId} {time : Millis} {w : Walk V}
    (h : w.Served options id time) : ∃ place, w.At place := by
  rcases h with ⟨⟨place, hat, _⟩, _⟩ | ⟨⟨place, hat, _⟩, _⟩
  · exact ⟨place, hat⟩
  · exact ⟨place, hat⟩

theorem Walk.Served.step {options : ListOptions} (hfield : options.field = .enqueuedAt)
    {id : JobId} {time : Millis} {w w' : Walk V} {event : WalkEvent V}
    (h : w.Served options id time) (hdate : w.Dated id time) (hmatch : w.Matches options id)
    (hs : WalkStep options w event w') : w'.Served options id time := by
  obtain ⟨job, hj, hadmits⟩ := hmatch
  obtain ⟨place, hat⟩ := h.at
  have hkey := listKey_dated hfield hat.keyed hdate hj
  rcases h with ⟨hawaits, hnot⟩ | ⟨hpassed, hcount⟩
  · cases hs with
    | call now op =>
      obtain ⟨place, hat, hopen, hbehind⟩ := hawaits
      exact .inl ⟨⟨place, hat.call now op, hopen, hbehind⟩, hnot⟩
    | page hopen =>
      rw [← hkey] at hawaits
      rcases hawaits.turn hj hadmits with ⟨hserved, hpassed⟩ | ⟨hnow, hawaits⟩
      · refine .inr ⟨hkey ▸ hpassed, ?_⟩
        rw [turn_served, List.count_append, List.count_eq_zero.mpr hnot, Nat.zero_add]
        exact List.count_eq_one_of_mem (hat.pageIds_nodup options) hserved
      · refine .inl ⟨hkey ▸ hawaits, ?_⟩
        rw [turn_served, List.mem_append, not_or]
        exact ⟨hnot, hnow⟩
  · refine .inr ⟨hpassed.step hs, ?_⟩
    cases hs with
    | call now op => exact hcount
    | page hopen =>
      rw [← hkey] at hpassed
      rw [turn_served, List.count_append, hcount,
        List.count_eq_zero.mpr (hpassed.not_served hj hopen)]

/-- Somewhere between two states of a walk the job was gone. -/
def GoneBetween (options : ListOptions) (id : JobId) (w : Walk V) (es : List (WalkEvent V))
    (w' : Walk V) : Prop :=
  ∃ es₁ es₂ m, es = es₁ ++ es₂ ∧ Run (WalkStep options) w es₁ m ∧ Run (WalkStep options) m es₂ w' ∧
    m.store.jobs.get? id = none

/-- What holds of every walk from `s`, whatever happens between its requests: a job that is stored
and matches in every state of a walk that has ended was served once, no page serves a job twice, and
a job on two pages was gone in between. -/
structure ExactWalks (s : Store V) (options : ListOptions) : Prop where
  complete : ∀ es w id, Run (WalkStep options) (Walk.start s) es w → w.ended = true →
    Always (WalkStep options) (Walk.start s) es w (Walk.Matches options id) →
    w.served.count id = 1
  distinct : ∀ es w, Run (WalkStep options) (Walk.start s) es w → (w.pageIds options).Nodup
  repeats : ∀ es a b fs c d id, Run (WalkStep options) (Walk.start s) es a →
    WalkStep options a .page b → Run (WalkStep options) b fs c → WalkStep options c .page d →
    id ∈ a.pageIds options → id ∈ c.pageIds options → GoneBetween options id b fs c

theorem exactWalks {s : Store V} (hk : s.toCore.Keyed) {options : ListOptions}
    (hfield : options.field = .enqueuedAt) : ExactWalks s options where
  complete := by
    intro es w id hrun hended hall
    obtain ⟨job, hj, _⟩ := hall [] es _ rfl (.refl _) hrun
    let C : Walk V → Prop := fun w =>
      w.Dated id job.enqueuedAt ∧ w.Served options id job.enqueuedAt
    have hstart : C (Walk.start s) := by
      refine ⟨fun job' hj' => ?_, .inl ⟨⟨none, Walk.start_at hk, rfl, ?_⟩, ?_⟩⟩
      · rw [Option.some.inj (hj'.symm.trans hj)]
      · rintro _ ⟨⟩
      · exact List.not_mem_nil
    have hsafe := hall.eachStep (P := fun w _ => w.Matches options id) fun _ _ _ _ h _ => h
    have hend : C w := by
      refine hsafe.always (C := C) ?_ hstart es [] w (by simp) hrun (.refl _)
      rintro w event w' hs hmatch ⟨hdate, hserved⟩
      obtain ⟨place, hat⟩ := hserved.at
      have hheld := hmatch.imp fun _ h => h.1
      exact ⟨hdate.step hs hat.keyed hheld, hserved.step hfield hdate hmatch hs⟩
    rcases hend.2 with ⟨⟨_, _, hopen, _⟩, _⟩ | ⟨_, hcount⟩
    · cases hopen.symm.trans hended
    · exact hcount
  distinct := by
    intro es w hrun
    obtain ⟨place, hat⟩ := hrun.preserves (I := fun w => ∃ place, w.At place)
      (fun _ _ _ hs => hs.at) ⟨none, Walk.start_at hk⟩
    exact hat.pageIds_nodup options
  repeats := by
    intro es a b fs c d id hrun hab hbc hcd ha hc
    by_contra hgone
    have hheld : Always (WalkStep options) b fs c fun w => ∃ job, w.store.jobs.get? id = some job := by
      intro es₁ es₂ m heq h₁ h₂
      apply Option.ne_none_iff_exists'.mp
      exact fun hnone => hgone ⟨es₁, es₂, m, heq, h₁, h₂, hnone⟩
    obtain ⟨place, hat⟩ := hrun.preserves (I := fun w => ∃ place, w.At place)
      (fun _ _ _ hs => hs.at) ⟨none, Walk.start_at hk⟩
    obtain ⟨job, hj⟩ := hat.holds options ha
    let C : Walk V → Prop := fun w =>
      w.Dated id job.enqueuedAt ∧ w.Passed options (job.enqueuedAt, id)
    have hdate : a.Dated id job.enqueuedAt := fun job' hj' => by
      rw [Option.some.inj (hj'.symm.trans hj)]
    have hstart : C b := by
      have hpassed := hat.passed_of_served ((hat.mem_pageIds options hj).mp ha)
      rw [listKey_dated hfield hat.keyed hdate hj] at hpassed
      cases hab
      exact ⟨hdate, hpassed⟩
    have hsafe := hheld.eachStep
      (P := fun w _ => ∃ job, w.store.jobs.get? id = some job) fun _ _ _ _ h _ => h
    have hend : C c := by
      refine hsafe.always (C := C) ?_ hstart fs [] c (by simp) hbc (.refl _)
      rintro w event w' hs hheld ⟨hdate, hpassed⟩
      obtain ⟨place, hat⟩ := hpassed.imp fun _ h => h.1
      exact ⟨hdate.step hs hat.keyed hheld, hpassed.step hs⟩
    obtain ⟨hdate, hpassed⟩ := hend
    have hopen : c.ended = false := by
      cases hcd
      assumption
    obtain ⟨place, hat⟩ := hpassed.imp fun _ h => h.1
    obtain ⟨job', hj'⟩ := hat.holds options hc
    rw [← listKey_dated hfield hat.keyed hdate hj'] at hpassed
    exact hpassed.not_served hj' hopen hc

/-- In every reachable store the cursors lead through the matching jobs exactly; in the order of
`enqueuedAt` they do so while the store goes on. Only the order by `runAt` asks for run times that end. -/
theorem list_exact {s : Store V} (h : Reachable Initial Next s) (options : ListOptions) :
    (∃ pages, drainList s options (pageCount s options) none = some pages ∧
      ExactPages s options pages) ∧
      (options.field = .enqueuedAt → ExactWalks s options) ∧
      (options.field ≠ .runAt → ∀ (runAt : MemJob V → WithTop ℤ) (cursor : Option String),
        listRows id runAt s.jobs.values { options with cursor } = list s { options with cursor }) :=
  ⟨drainList_exact (reachable_keyed h) options, exactWalks (reachable_keyed h),
    fun hfield _ cursor => listRows_congr { options with cursor } hfield s.jobs.values⟩

/-- Three jobs enqueued in one instant, one of them under an id with the separator. -/
def threeAtOnce : List (Millis × Op Unit) :=
  [(5, .enqueue (.plain "a" "job" "q" ()) .counter),
    (5, .enqueue (.plain "5:b" "job" "q" ()) .counter),
    (5, .enqueue (.plain "c" "job" "q" ()) .counter)]

theorem list_exact_threeAtOnce :
    ∃ pages, drainList (execs Store.empty threeAtOnce) { limit := some 1 } 3 none = some pages ∧
      ExactPages (execs Store.empty threeAtOnce) { limit := some 1 } pages ∧
      ExactWalks (execs Store.empty threeAtOnce) { limit := some 1 } := by
  obtain ⟨⟨pages, hdrain, hexact⟩, hwalks, -⟩ :=
    list_exact (reachable_next threeAtOnce) { limit := some 1 }
  exact ⟨pages, hdrain, hexact, hwalks rfl⟩

/-! ## Run times without end -/

/-- Two jobs delayed by `Duration.infinity`, with their run times. -/
def endlessJobs : List (MemJob Unit × WithTop ℤ) :=
  [(newJob "b" { EnqueueRequest.plain "b" "job" "q" () with delayMs := 1 } 0 1, ⊤),
    (newJob "a" { EnqueueRequest.plain "a" "job" "q" () with delayMs := 1 } 0 2, ⊤)]

/-- `Infinity - Infinity` is `NaN`, so the ids do not decide and the jobs stay in the order of the map;
the cursor after `b` then excludes `a`. -/
theorem endless_jobs_skipped :
    ¬ ∀ (rows : List (MemJob Unit × WithTop ℤ)) (options : ListOptions),
      (rows.map fun row => row.1.id).Nodup → ∀ fuel pages,
        drainPages (fun cursor => listRows Prod.fst Prod.snd rows { options with cursor }) fuel none =
          some pages →
        ∀ row ∈ rows, listAdmits options row.1 = true →
          row.1.id ∈ (pages.flatMap (·.items)).map (·.id) := by
  intro h
  have hserved := h endlessJobs { orderBy := some .runAt, order := some .asc, limit := some 1 }
    (by decide) 2 _ rfl _ (List.mem_cons_of_mem _ List.mem_cons_self) rfl
  revert hserved
  decide

end EffectMq.Memory
