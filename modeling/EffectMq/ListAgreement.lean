import EffectMq.LifecycleAgreement
import EffectMq.MemoryJobStore.Listing
import EffectMq.RedisJobStore.Pages

/-! # The two drivers list alike

`list` on two stores that hold the same board. JavaScript breaks a tie between two ids by their code
units and Redis by their bytes; on ids of the basic plane that is one order, and both drivers serve the
same page (`Agrees.list`).
-/

namespace EffectMq
set_option autoImplicit false
set_option maxHeartbeats 250000

variable {V : Type} {indexes : Redis.IndexConfig}

/-- The record of a hash, as `toRecord` reads it. -/
def Redis.JobHash.record (job : Redis.JobHash V) : JobRecord V := (job.stored []).toJobRecord

def Redis.ListPage.reply (page : Redis.ListPage V) : ListResult V :=
  ⟨page.items.map Redis.JobHash.record, page.cursor⟩

def Memory.Store.BasicIds (s : Memory.Store V) : Prop :=
  ∀ id job, s.jobs.get? id = some job → CodeUnits.Basic id

/-- What the in-memory driver holds for a row. -/
def Redis.Keyspace.storedRow (ks : Redis.Keyspace V) (row : JobId × Redis.JobHash V) : Memory.MemJob V :=
  row.2.stored (ks.attempts row.1)

theorem precedes_basic (desc : Bool) {a b : Redis.Entry} (ha : CodeUnits.Basic a.1)
    (hb : CodeUnits.Basic b.1) : Memory.Precedes desc a.swap b.swap ↔ Redis.Precedes desc a b := by
  have hab : Memory.jsLt a.1 b.1 ↔ a.1 < b.1 := CodeUnits.units_lt ha hb
  have hba : Memory.jsLt b.1 a.1 ↔ b.1 < a.1 := CodeUnits.units_lt hb ha
  cases desc with
  | false => simp [Memory.Precedes, Memory.KeyLt, Redis.Precedes, hab]
  | true => simp [Memory.Precedes, Memory.KeyLt, Redis.Precedes, hba]

section List

variable {ks : Redis.Keyspace V} {s : Memory.Store V} (h : Agrees indexes ks s) (hbasic : s.BasicIds)

include h

theorem Agrees.listKey {row : JobId × Redis.JobHash V} (hjob : ks.jobs.get? row.1 = some row.2)
    (field : ListField) : Memory.listKey field (ks.storedRow row) =
      (Redis.rowEntry (·.orderValue field) row).swap := by
  have hid : row.2.id = row.1 := (h.sound.consistent.sound row.1 row.2 hjob).keyed
  have hvalue : Memory.orderValue field (ks.storedRow row).toJobRecord = row.2.orderValue field := by
    cases field <;> rfl
  exact Prod.ext hvalue hid

include hbasic

theorem Agrees.basic {row : JobId × Redis.JobHash V} (hjob : ks.jobs.get? row.1 = some row.2) :
    CodeUnits.Basic row.1 :=
  hbasic row.1 _ (h.found hjob)

/-- The same jobs match, in the same order. -/
theorem Agrees.sortedMatches (options : ListOptions) :
    Memory.sortedMatches s options = (Redis.sortedMatches ks options).map ks.storedRow := by
  refine (Memory.sortedMatches_sorted h.keyed options).ext (List.pairwise_map.mpr ?_) fun job => ?_
  · refine List.Pairwise.imp_of_mem (fun {a b} ha hb hab => ?_) (Redis.sortedMatches_sorted ks options)
    have hjob := (Redis.mem_sortedMatches.mp ha).1
    have hjob' := (Redis.mem_sortedMatches.mp hb).1
    rw [h.listKey hjob, h.listKey hjob']
    exact (precedes_basic _ (h.basic hbasic hjob) (h.basic hbasic hjob')).mpr hab
  · rw [Memory.mem_sortedMatches h.keyed, List.mem_map]
    constructor
    · rintro ⟨hget, hadmits⟩
      rw [jobs_of_board h.board] at hget
      obtain ⟨hash, hhash, hstored⟩ := Option.map_eq_some_iff.mp hget
      refine ⟨(job.id, hash), Redis.mem_sortedMatches.mpr ⟨hhash, ?_⟩, hstored⟩
      rw [← hstored] at hadmits
      exact hadmits
    · rintro ⟨row, hrow, rfl⟩
      obtain ⟨hjob, hadmits⟩ := Redis.mem_sortedMatches.mp hrow
      have hid : row.2.id = row.1 := (h.sound.consistent.sound row.1 row.2 hjob).keyed
      refine ⟨?_, hadmits⟩
      have hstored : (ks.storedRow row).id = row.1 := hid
      rw [hstored]
      exact h.found hjob

/-- A query with a route is served the same page, from the start or from a cursor on. -/
theorem Agrees.list {tonumber : String → Option ℤ} (hnumber : ∀ n : ℤ, tonumber (Int.repr n) = some n)
    {options : ListOptions} {routed : List Redis.ListSource × Redis.ResidualFilters}
    (hroute : Redis.route indexes options = .ok routed) {place : Option Redis.Entry}
    (hcursor : options.cursor = place.map Redis.cursorText)
    (hplace : ∀ e, place = some e → CodeUnits.Basic e.1) :
    ∃ page : Redis.ListPage V, Redis.list tonumber indexes ks options = .ok (some (page, ks)) ∧
      page.reply = Memory.list s options := by
  have hsame : options = { options with cursor := place.map Redis.cursorText } := by
    rw [← hcursor]
  have hkey : place.map Redis.cursorText = (place.map Prod.swap).map Memory.keyText := by
    rw [Option.map_map]
    rfl
  have hpaged : Paging.page (Memory.Precedes options.descending) (Memory.listKey options.field)
      options.pageSize ((Redis.sortedMatches ks options).map ks.storedRow) (place.map Prod.swap) =
      ⟨(Redis.keysetPage ks options place).items.map ks.storedRow,
        (Redis.keysetPage ks options place).next.map Prod.swap⟩ :=
    Paging.page_map
      (fun row hrow => h.listKey (Redis.mem_sortedMatches.mp hrow).1 options.field)
      (fun row hrow k hk => precedes_basic _ (hplace k hk)
        (h.basic hbasic (Redis.mem_sortedMatches.mp hrow).1))
  have hredis := Redis.list_follow hnumber h.sound.consistent hroute place
  have hmemory := Memory.list_eq_page s options (place.map Prod.swap)
  rw [← hsame] at hredis
  rw [← hkey, ← hsame, h.sortedMatches hbasic, hpaged] at hmemory
  refine ⟨_, hredis, ?_⟩
  rw [hmemory]
  simp only [Redis.ListPage.reply, Redis.pageResult, Memory.pageResult, List.map_map, Option.map_map]
  rfl

end List

end EffectMq
