import EffectMq.DrizzleJobStore.Reports
import EffectMq.MemoryJobStore.Records
import EffectMq.MemoryJobStore.Reports
import EffectMq.RedisJobStore.Reports

/-! # The drivers agree on child reports

Three drivers that hold the same flows answer a batch alike and hold the same flows afterwards
(`reports_agree`). The reports have to be ones that all three can hold: Postgres takes no NUL in a
text, and Redis takes an empty reason for an absent one (`reports_disagree`).
-/

namespace EffectMq
set_option autoImplicit false
set_option maxHeartbeats 250000

open Transition

variable {V : Type}

/-- The stores hold the same flows and the same undelivered reports. The member index of a flow is
how the keyspace lists its rows. -/
structure Corresponds (s : Memory.Store V) (ks : Redis.Keyspace V) (t : Drizzle.Tables V) : Prop where
  redis : ks.book = s.toCore.book
  postgres : t.book = s.toCore.book
  indexed : ks.RowsIndexed
  redisSent : ks.sent.Perm s.toCore.sent
  postgresSent : t.sent.Perm s.toCore.sent

/-- No reported parent has a retention policy. -/
structure Keepless (s : Memory.Store V) (ks : Redis.Keyspace V) (t : Drizzle.Tables V)
    (reports : List (FlowChildReport V)) : Prop where
  memory : ∀ report ∈ reports, ∀ job, s.jobs.get? report.flowId = some job → job.keep = none
  redis : ∀ report ∈ reports, ∀ job, ks.jobs.get? report.flowId = some job → job.keep = none
  postgres : ∀ report ∈ reports, ∀ row, t.jobs.get? report.flowId = some row → row.keep = none

/-- The calls end, answer alike and leave corresponding stores. -/
def Agree (accepts : V → Bool) (s : Memory.Store V) (ks : Redis.Keyspace V) (t : Drizzle.Tables V)
    (seq : ℕ) (reports : List (FlowChildReport V)) (now : Millis) : Prop :=
  ∃ replies ks' results t',
    Redis.recordReports ks reports now = .ok (replies, ks') ∧
    Drizzle.recordChildResults accepts t seq reports now = .ok (results, t') ∧
    Redis.answerOf replies = Memory.answerOf (Memory.recordChildResults s now reports).1 ∧
    results = Memory.answerOf (Memory.recordChildResults s now reports).1 ∧
    Corresponds (Memory.recordChildResults s now reports).2 ks' t'

theorem reports_agree (accepts : V → Bool) {s : Memory.Store V} {ks : Redis.Keyspace V}
    {t : Drizzle.Tables V} (h : Reachable Memory.Initial Memory.Next s) (hc : Corresponds s ks t)
    {reports : List (FlowChildReport V)} (hlength : reports.length ≤ 500)
    (hkeep : Keepless s ks t reports)
    (hstorable : ∀ report ∈ reports, Drizzle.storableReport accepts report = true)
    (htold : ∀ report ∈ reports, report.failedReason ≠ some "") (seq : ℕ) (now : Millis) :
    Agree accepts s ks t seq reports now := by
  have hunpruned : s.Unpruned reports := fun report hreport job hjob _ _ _ =>
    hkeep.memory report hreport job hjob
  obtain ⟨hanswer, hafter, hsent⟩ :=
    Memory.recordChildResults_books (Memory.reachable_keyed h) now hunpruned
  obtain ⟨replies, ks', hok, hindexed, hreplies, hbook, hposted⟩ :=
    Redis.recordChildResults_books hc.indexed now htold
      fun report hreport job hjob _ _ _ => hkeep.redis report hreport job hjob
  obtain ⟨results, t', hok', hresults, hbook', hposted'⟩ :=
    Drizzle.recordChildResults_books accepts seq hstorable (fun report hreport row hrow => by
      refine ⟨fun hstate => ?_, fun _ _ _ => hkeep.postgres report hreport row hrow⟩
      -- a parent that waits has no exit, as in the memory driver
      have hparent := congrArg FlowBook.parent (congrFun hc.postgres report.flowId)
      simp only [Drizzle.Tables.book, Memory.Core.book, hrow, Option.map_some] at hparent
      obtain ⟨job, hjob, hsame⟩ := Option.map_eq_some_iff.mp hparent.symm
      have hwell := (Memory.reachable_recordInv h).wellFormed report.flowId job hjob
      have hstates : job.state = row.state := congrArg ParentBook.state hsame
      have hexits : job.exit = row.exit := congrArg ParentBook.exit hsame
      rw [← hexits]
      exact (hwell.clean (by rw [hstates, hstate]; rfl)).2.1) now
  rw [hc.redis] at hreplies hbook hposted
  rw [hc.postgres] at hresults hbook' hposted'
  refine ⟨replies, ks', results, t', ?_, hok', hreplies.trans hanswer.symm,
    hresults.trans hanswer.symm, hbook.trans hafter.symm, hbook'.trans hafter.symm, hindexed, ?_, ?_⟩
  · rw [Redis.recordReports_of_length_le ks hlength, hok]
  · exact (hposted.trans (hc.redisSent.append_right _)).trans hsent.symm
  · exact (hposted'.trans (hc.postgresSent.append_right _)).trans hsent.symm

/-- A flow with one child that has not reported. -/
def oneChild : List (Millis × Memory.Op Unit) :=
  [(0, .enqueue (.plain "p" "flow" "q" ()) .counter),
    (1, .claim ⟨"q", ["flow"], "t", 30⟩),
    (2, .ack "p" "t" (.fanOut false [⟨"a", "kids", .plain "a" "child" "q" ()⟩]))]

def oneChildManifest : FlowState :=
  { failFast := false, pending := 1, completed := 0, failed := 0, cancelled := 0 }

/-- The hash of the parent. -/
def oneChildHash : Redis.JobHash Unit :=
  { Redis.jobHash "p" (.plain "p" "flow" "q" ()) "" 0 1 with
    state := .waitingChildren, flow := some oneChildManifest, processedAt := some 1 }

def oneChildKeys : Redis.Keyspace Unit :=
  { Redis.Keyspace.empty with
    jobs := JsMap.single "p" oneChildHash
    attempts := fun id => if id = "p" then [⟨1, some 1, 2, .fannedOut, none⟩] else []
    flowRows := JsMap.single ("p", "a")
      (Redis.rowHash ⟨"a", "kids", "a", "child", .plain "a" "child" "q" ()⟩ 2)
    flowIndex := fun id => if id = "p" then (∅ : ZSet ℤ String).add "a" 0 else ∅ }

/-- The row of the parent. -/
def oneChildRow : Drizzle.JobRow Unit :=
  { Memory.newJob "p" (.plain "p" "flow" "q" ()) 0 1 with
    state := .waitingChildren, flow := some oneChildManifest, processedAt := some 1, seq := 1,
    lockToken := none, lockExpiresAt := none }

def oneChildTables : Drizzle.Tables Unit :=
  { Drizzle.Tables.empty with
    jobs := JsMap.single "p" oneChildRow
    attempts := fun id => if id = "p" then [⟨1, some 1, 2, .fannedOut, none⟩] else []
    flowChildren := JsMap.single ("p", "a")
      ⟨"p", "a", "kids", .plain "a" "child" "q" (), .pending, none, none, false, 2⟩ }

/-- The flow as every driver holds it. -/
def oneChildBook (flowId : JobId) : FlowBook Unit where
  rows childKey :=
    if flowId = "p" ∧ childKey = "a" then some ⟨.pending, none, none, false⟩ else none
  pendingRows := if flowId = "p" then 1 else 0
  parent :=
    if flowId = "p" then
      some ⟨.waitingChildren, some oneChildManifest, none, none, none, [.fannedOut]⟩
    else none

theorem memory_oneChild :
    (Memory.execs Memory.Store.empty oneChild).toCore.book = oneChildBook := by
  have hrows : (Memory.execs Memory.Store.empty oneChild).flowChildren = JsMap.single "p"
      (JsMap.single "a" ⟨"p", "a", "kids", .plain "a" "child" "q" (), .pending, none, none, false,
        2⟩) := rfl
  have hjobs : ∃ job, (Memory.execs Memory.Store.empty oneChild).jobs = JsMap.single "p" job ∧
      Memory.parentBook job =
        ⟨.waitingChildren, some oneChildManifest, none, none, none, [.fannedOut]⟩ := ⟨_, rfl, rfl⟩
  obtain ⟨job, hjobs, hjob⟩ := hjobs
  funext flowId
  apply FlowBook.ext
  · funext childKey
    simp only [Memory.Core.book, Memory.Core.row?, hrows, JsMap.get?_single, oneChildBook]
    by_cases hflow : flowId = "p"
    · by_cases hkey : childKey = "a" <;> simp [hflow, hkey, Memory.rowBook]
    · simp [hflow]
  · simp only [Memory.Core.book, hrows, JsMap.get?_single, oneChildBook]
    by_cases hflow : flowId = "p" <;> simp [hflow, Memory.countStatus]
  · simp only [Memory.Core.book, hjobs, JsMap.get?_single, oneChildBook]
    by_cases hflow : flowId = "p" <;> simp [hflow, hjob]

theorem redis_oneChild : oneChildKeys.book = oneChildBook := by
  funext flowId
  apply FlowBook.ext
  · funext childKey
    simp only [Redis.Keyspace.book, oneChildKeys, JsMap.get?_single, oneChildBook, Prod.mk.injEq]
    by_cases hmember : flowId = "p" ∧ childKey = "a"
    · simp [hmember, Redis.rowBook, Redis.rowHash, Redis.optionalString]
    · simp [hmember]
  · by_cases hflow : flowId = "p"
    · subst hflow
      rfl
    · have hempty : (oneChildKeys.flowIndex flowId).members = [] := by
        simp only [oneChildKeys, if_neg hflow]
        rfl
      simp only [Redis.Keyspace.book, hempty, List.countP_nil, oneChildBook, if_neg hflow]
  · simp only [Redis.Keyspace.book, oneChildKeys, JsMap.get?_single, oneChildBook]
    by_cases hflow : flowId = "p"
    · subst hflow
      rfl
    · simp [hflow]

theorem postgres_oneChild : oneChildTables.book = oneChildBook := by
  funext flowId
  apply FlowBook.ext
  · funext childKey
    simp only [Drizzle.Tables.book, oneChildTables, JsMap.get?_single, oneChildBook, Prod.mk.injEq]
    by_cases hmember : flowId = "p" ∧ childKey = "a"
    · simp [hmember, Drizzle.rowBook]
    · simp [hmember]
  · by_cases hflow : flowId = "p"
    · subst hflow
      rfl
    · simp [Drizzle.Tables.book, Drizzle.Tables.pendingRows, oneChildTables, JsMap.single,
        oneChildBook, hflow, Ne.symm hflow]
  · simp only [Drizzle.Tables.book, oneChildTables, JsMap.get?_single, oneChildBook]
    by_cases hflow : flowId = "p"
    · subst hflow
      rfl
    · simp [hflow]

theorem corresponds_oneChild :
    Corresponds (Memory.execs Memory.Store.empty oneChild) oneChildKeys oneChildTables where
  redis := redis_oneChild.trans memory_oneChild.symm
  postgres := postgres_oneChild.trans memory_oneChild.symm
  indexed := by
    intro flowId childKey row hrow
    simp only [oneChildKeys, JsMap.get?_single] at hrow
    split at hrow
    · rename_i hmember
      obtain ⟨rfl, rfl⟩ := Prod.mk.inj hmember
      exact List.mem_singleton.mpr rfl
    · cases hrow
  redisSent := .refl _
  postgresSent := .refl _

theorem keepless_oneChild (reports : List (FlowChildReport Unit)) :
    Keepless (Memory.execs Memory.Store.empty oneChild) oneChildKeys oneChildTables reports := by
  have hjobs : ∃ job, (Memory.execs Memory.Store.empty oneChild).jobs = JsMap.single "p" job ∧
      job.keep = none := ⟨_, rfl, rfl⟩
  obtain ⟨job₀, hjobs, hkeep⟩ := hjobs
  constructor
  · intro report _ job hjob
    rw [hjobs, JsMap.get?_single] at hjob
    split at hjob
    · rw [← Option.some.inj hjob, hkeep]
    · cases hjob
  · intro report _ job hjob
    simp only [oneChildKeys, JsMap.get?_single] at hjob
    split at hjob
    · rw [← Option.some.inj hjob]
      rfl
    · cases hjob
  · intro report _ row hrow
    simp only [oneChildTables, JsMap.get?_single] at hrow
    split at hrow
    · rw [← Option.some.inj hrow]
      rfl
    · cases hrow

/-- The child reports twice in one batch. -/
theorem reports_agree_oneChild :
    Agree (fun _ => true) (Memory.execs Memory.Store.empty oneChild) oneChildKeys oneChildTables 1
      [⟨"p", "a", .completed, some (), none⟩, ⟨"p", "a", .failed, none, some "lost"⟩] 5 :=
  reports_agree _ (Memory.reachable_next oneChild) corresponds_oneChild (by decide)
    (keepless_oneChild _) (by decide) (by decide) 1 5

/-- An empty reason is gone in Redis, and a NUL is refused by Postgres. -/
theorem reports_disagree :
    Reachable Memory.Initial Memory.Next (Memory.execs Memory.Store.empty oneChild) ∧
    Corresponds (Memory.execs Memory.Store.empty oneChild) oneChildKeys oneChildTables ∧
    (∀ reports, Keepless (Memory.execs Memory.Store.empty oneChild) oneChildKeys oneChildTables
      reports) ∧
    ¬Agree (fun _ => true) (Memory.execs Memory.Store.empty oneChild) oneChildKeys oneChildTables 1
      [⟨"p", "a", .failed, none, some ""⟩] 5 ∧
    ¬Agree (fun _ => true) (Memory.execs Memory.Store.empty oneChild) oneChildKeys oneChildTables 1
      [⟨"p", "a\u0000", .failed, none, none⟩] 5 := by
  refine ⟨Memory.reachable_next oneChild, corresponds_oneChild, keepless_oneChild, ?_, ?_⟩
  · rintro ⟨replies, ks', results, t', hok, -, -, -, hc⟩
    have hrun : ∃ ks₀, Redis.recordReports oneChildKeys [⟨"p", "a", .failed, none, some ""⟩] 5 =
        .ok ([⟨true, true⟩], ks₀) ∧
        (ks₀.book "p").rows "a" = some ⟨.failed, none, none, true⟩ := ⟨_, rfl, rfl⟩
    obtain ⟨ks₀, hrun, hrow⟩ := hrun
    obtain ⟨-, rfl⟩ := Prod.mk.inj (Except.ok.inj (hok.symm.trans hrun))
    rw [hc.redis] at hrow
    have hmemory : ((Memory.recordChildResults (Memory.execs Memory.Store.empty oneChild) 5
        [⟨"p", "a", .failed, none, some ""⟩]).2.toCore.book "p").rows "a" =
        some ⟨.failed, none, some "", true⟩ := rfl
    rw [hmemory] at hrow
    simp at hrow
  · rintro ⟨replies, ks', results, t', -, hok, -⟩
    have hrun : Drizzle.recordChildResults (fun _ => true) oneChildTables 1
        [⟨"p", "a\u0000", .failed, none, none⟩] 5 = .error .invalidText := rfl
    rw [hrun] at hok
    cases hok

end EffectMq
