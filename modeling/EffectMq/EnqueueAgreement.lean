import EffectMq.DrizzleJobStore.Enqueue
import EffectMq.RedisJobStore.EnqueueMany

/-! # A batch and its requests one by one

`enqueueMany` of the Redis and the Postgres driver against `enqueue` of each request in turn. Requests
carry the ids of their callers; an id may occur more than once and may be there already.
-/

namespace EffectMq
set_option autoImplicit false
set_option maxHeartbeats 250000

/-- On Postgres the answers are the same and the databases differ in the numbers drawn at most, whenever
Postgres takes the rows of the plain items. On Redis answers and keyspaces are the same, whenever no
plain item has the empty id. -/
theorem enqueueMany_one_by_one (V : Type) :
    (∀ (driver : Drizzle.Driver V) (now : Millis) (requests : List (EnqueueRequest V))
      (db : Drizzle.Db V), (∀ request ∈ requests, driver.Explicit now request) →
      (driver.enqueueMany now requests db).1 = ((requests.mapM (driver.enqueueOne now)) db).1 ∧
        (driver.enqueueMany now requests db).2.Alike
          ((requests.mapM (driver.enqueueOne now)) db).2) ∧
    ∀ (driver : Redis.Driver V) (now : Millis) (requests : List (EnqueueRequest V))
      (s : Redis.Session V), (∀ request ∈ requests, Redis.Driver.Explicit request) →
      driver.enqueueMany now requests s = (requests.mapM (driver.enqueueJob now)) s := by
  refine ⟨fun driver now requests db h => ?_, fun driver now requests s h => ?_⟩
  · exact driver.enqueueMany_simulates now h db db (.refl db)
  · obtain ⟨hanswer, hleft⟩ := driver.enqueueMany_simulates now h s s rfl
    exact Prod.ext hanswer hleft

/-! ### A refused row -/

/-- A Postgres that takes every text without NUL, payloads of text included. -/
def texts : Drizzle.Driver String where
  idGenerator := none
  accepts := fun id request _ =>
    !(id ++ request.name ++ request.queue ++ request.payload).toList.contains '\x00'
  dates := fun _ => true
  returning := id
  returning_perm := fun _ => .refl _

def emptyDb : Drizzle.Db String where
  tables := .empty
  seq := 0
  draws := 0
  drawn := fun _ _ h => by cases h

/-- An id twice, and a dedup key between two plain items. -/
def mixedRequests : List (EnqueueRequest String) :=
  [.plain "a" "resize" "images" "1.png", .plain "a" "resize" "images" "1.png",
    { EnqueueRequest.plain "b" "resize" "images" "1.png" with
      dedupe := some ⟨"photo", none, false, false⟩ },
    .plain "c" "resize" "images" "1.png"]

def mixedAnswers : List EnqueueResult := [⟨"a", false⟩, ⟨"a", true⟩, ⟨"b", false⟩, ⟨"c", false⟩]

def redisDriver : Redis.Driver String := ⟨⟨true, true⟩, none⟩

theorem enqueueMany_one_by_one_mixed :
    ((texts.enqueueMany 0 mixedRequests emptyDb).2.Alike
        ((mixedRequests.mapM (texts.enqueueOne 0)) emptyDb).2 ∧
      (texts.enqueueMany 0 mixedRequests emptyDb).1 = .ok mixedAnswers) ∧
    redisDriver.enqueueMany 0 mixedRequests ⟨.empty, 0⟩ =
        (mixedRequests.mapM (redisDriver.enqueueJob 0)) ⟨.empty, 0⟩ ∧
      (redisDriver.enqueueMany 0 mixedRequests ⟨.empty, 0⟩).1 = .ok mixedAnswers := by
  have hplain : ∀ request ∈ mixedRequests, texts.Explicit 0 request ∧ Redis.Driver.Explicit request := by
    intro request hrequest
    simp only [mixedRequests, List.mem_cons, List.not_mem_nil, or_false] at hrequest
    rcases hrequest with rfl | rfl | rfl | rfl
    · exact ⟨⟨"a", rfl, fun _ => by decide⟩, "a", rfl, fun _ => by decide⟩
    · exact ⟨⟨"a", rfl, fun _ => by decide⟩, "a", rfl, fun _ => by decide⟩
    · exact ⟨⟨"b", rfl, fun _ => by decide⟩, "b", rfl, fun _ => by decide⟩
    · exact ⟨⟨"c", rfl, fun _ => by decide⟩, "c", rfl, fun _ => by decide⟩
  obtain ⟨hanswer, halike⟩ := (enqueueMany_one_by_one String).1 texts 0 mixedRequests emptyDb
    fun request hrequest => (hplain request hrequest).1
  have hredis := (enqueueMany_one_by_one String).2 redisDriver 0 mixedRequests ⟨.empty, 0⟩
    fun request hrequest => (hplain request hrequest).2
  exact ⟨⟨halike, by rw [hanswer]; rfl⟩, hredis, by rw [hredis]; rfl⟩

/-- One by one the first job is there before the second is refused; in the batch neither is. -/
theorem enqueueMany_refused :
    ¬ ∀ (driver : Drizzle.Driver String) (now : Millis) (requests : List (EnqueueRequest String))
      (db : Drizzle.Db String), (∀ request ∈ requests, request.id.isSome = true) →
      (driver.enqueueMany now requests db).2.Alike
        ((requests.mapM (driver.enqueueOne now)) db).2 := by
  intro h
  have halike := h texts 0
    [.plain "a" "resize" "images" "1.png", .plain "b" "resize" "images" "\x00"] emptyDb (by decide)
  exact absurd (halike.isSome "a") (by decide)

end EffectMq
