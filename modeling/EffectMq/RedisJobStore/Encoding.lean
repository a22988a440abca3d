import EffectMq.Library.Json
import EffectMq.RedisJobStore.FlowScripts

/-! # The Redis driver: how records are written and read back

The typed hashes, ledgers and outboxes of the keyspace are texts in Redis: flat field and value pairs
with `""` for absent, and JSON that the scripts splice from texts they never parse. Here are the texts
the scripts and `RedisJobStore.ts` write and the functions of `RedisJobStore.ts` that read them; what
is read is what the typed keyspace holds.
-/

namespace EffectMq.Redis.Wire
set_option autoImplicit false
set_option maxHeartbeats 250000

open Json (Numerals member)

/-! ## JSON values and the data they hold -/

def asString : Json → Option String
  | .str s => some s
  | _ => none

def asBool : Json → Option Bool
  | .bool b => some b
  | _ => none

def asRat : Json → Option ℚ
  | .num q => some q
  | _ => none

def asInt (v : Json) : Option ℤ := do
  let q ← asRat v
  if q.den = 1 then some q.num else none

def asNat (v : Json) : Option ℕ := do
  let n ← asInt v
  if 0 ≤ n then some n.toNat else none

def asMembers : Json → Option (List (String × Json))
  | .obj ms => some ms
  | _ => none

@[simp] theorem asInt_intCast (n : ℤ) : asInt (.num n) = some n := by simp [asInt, asRat]

@[simp] theorem asNat_natCast (n : ℕ) : asNat (.num n) = some n := by
  have h : asInt (.num n) = some (n : ℤ) := asInt_intCast n
  simp [asNat, h]

/-- The members an object has for an optional property: none for `undefined`. -/
def optional (name : String) : Option Json → List (String × Json)
  | none => []
  | some v => [(name, v)]

theorem member_append (name : String) (xs ys : List (String × Json)) :
    member name (xs ++ ys) = (member name ys).or (member name xs) := by
  rw [member, List.reverse_append, List.lookup_append]
  rfl

@[simp] theorem member_nil (name : String) : member name [] = none := rfl

@[simp] theorem member_cons (name name' : String) (v : Json) (ms : List (String × Json)) :
    member name ((name', v) :: ms) =
      (member name ms).or (if name = name' then some v else none) := by
  rw [member, List.reverse_cons, List.lookup_append]
  by_cases h : name = name'
  · simp [member, h]
  · simp [member, List.lookup_cons, beq_false_of_ne h, h]

@[simp] theorem member_optional (name name' : String) (v : Option Json) :
    member name (optional name' v) = if name = name' then v else none := by
  cases v with
  | none => simp [optional]
  | some v => simp [optional]

/-- An optional property. -/
def property {α : Type} (decode : Json → Option α) : Option Json → Option (Option α)
  | none => some none
  | some v => (decode v).map some

theorem property_map {α : Type} {encode : α → Json} {decode : Json → Option α} {o : Option α}
    (h : ∀ a ∈ o, decode (encode a) = some a) : property decode (o.map encode) = some o := by
  cases o with
  | none => rfl
  | some a => simp [property, h a rfl]

/-! ## Policies, envelopes and traces -/

def backoffTag : BackoffKind → String
  | .fixed => "fixed"
  | .exponential => "exponential"

def backoffKindOf (tag : String) : Option BackoffKind :=
  if tag = "fixed" then some .fixed
  else if tag = "exponential" then some .exponential
  else none

def backoffJson (backoff : BackoffPolicy) : Json :=
  .obj (("_tag", .str (backoffTag backoff.kind)) :: ("delayMs", .num backoff.delayMs) ::
    optional "factor" (backoff.factor.map .num))

def backoffOf (v : Json) : Option BackoffPolicy := do
  let ms ← asMembers v
  let tag ← (member "_tag" ms).bind asString
  let kind ← backoffKindOf tag
  let delayMs ← (member "delayMs" ms).bind asInt
  let factor ← property asRat (member "factor" ms)
  some { kind, delayMs, factor }

/-- `JSON.stringify` writes a number that is not finite as `null`. -/
def numberJson : JsNumber → Json
  | .finite q => .num q
  | .posInf | .negInf | .nan => .null

def numberOf (v : Json) : Option JsNumber := (asRat v).map .finite

def JsNumber.Finite (n : JsNumber) : Prop := ∃ q, n = .finite q

def keepStateMembers (policy : KeepStatePolicy) : List (String × Json) :=
  optional "count" (policy.count.map numberJson) ++ optional "ageMs" (policy.ageMs.map numberJson)

def keepStateOfMembers (ms : List (String × Json)) : Option KeepStatePolicy := do
  let count ← property numberOf (member "count" ms)
  let ageMs ← property numberOf (member "ageMs" ms)
  some { count, ageMs }

def keepStateOf (v : Json) : Option KeepStatePolicy := (asMembers v).bind keepStateOfMembers

/-- The flat shape of 0.2.x rows lies beside the states in one object. -/
def keepJson (keep : KeepPolicy) : Json :=
  .obj (optional "completed" (keep.completed.map fun p => .obj (keepStateMembers p)) ++
    optional "failed" (keep.failed.map fun p => .obj (keepStateMembers p)) ++
    optional "cancelled" (keep.cancelled.map fun p => .obj (keepStateMembers p)) ++
    (keep.flat.map keepStateMembers).getD [])

def keepOf (v : Json) : Option KeepPolicy := do
  let ms ← asMembers v
  let completed ← property keepStateOf (member "completed" ms)
  let failed ← property keepStateOf (member "failed" ms)
  let cancelled ← property keepStateOf (member "cancelled" ms)
  let flat ← keepStateOfMembers ms
  some { completed, failed, cancelled, flat := if flat = ⟨none, none⟩ then none else some flat }

/-- Counts and ages that JSON can carry. -/
structure FiniteKeepState (policy : KeepStatePolicy) : Prop where
  count : ∀ n ∈ policy.count, JsNumber.Finite n
  ageMs : ∀ n ∈ policy.ageMs, JsNumber.Finite n

structure FiniteKeep (keep : KeepPolicy) : Prop where
  completed : ∀ p ∈ keep.completed, FiniteKeepState p
  failed : ∀ p ∈ keep.failed, FiniteKeepState p
  cancelled : ∀ p ∈ keep.cancelled, FiniteKeepState p
  flat : ∀ p ∈ keep.flat, FiniteKeepState p ∧ p ≠ ⟨none, none⟩

def traceJson (trace : TraceContext) : Json :=
  .obj [("traceId", .str trace.traceId), ("spanId", .str trace.spanId),
    ("sampled", .bool trace.sampled), ("delayed", .bool trace.delayed)]

def traceOf (v : Json) : Option TraceContext := do
  let ms ← asMembers v
  let traceId ← (member "traceId" ms).bind asString
  let spanId ← (member "spanId" ms).bind asString
  let sampled ← (member "sampled" ms).bind asBool
  let delayed ← (member "delayed" ms).bind asBool
  some { traceId, spanId, sampled, delayed }

def parentJson (parent : ParentEnvelope) : Json :=
  .obj [("flowName", .str parent.flowName), ("flowId", .str parent.flowId),
    ("childKey", .str parent.childKey), ("parentStoreKey", .str parent.parentStoreKey),
    ("depth", .num parent.depth)]

def parentOf (v : Json) : Option ParentEnvelope := do
  let ms ← asMembers v
  let flowName ← (member "flowName" ms).bind asString
  let flowId ← (member "flowId" ms).bind asString
  let childKey ← (member "childKey" ms).bind asString
  let parentStoreKey ← (member "parentStoreKey" ms).bind asString
  let depth ← (member "depth" ms).bind asNat
  some { flowName, flowId, childKey, parentStoreKey, depth }

def metadataJson (metadata : List (String × String)) : Json :=
  .obj (metadata.map fun entry => (entry.1, .str entry.2))

def metadataOf (v : Json) : Option (List (String × String)) := do
  let ms ← asMembers v
  ms.mapM fun entry => (asString entry.2).map fun value => (entry.1, value)

theorem held_traceJson (numerals : Numerals) (trace : TraceContext) :
    (traceJson trace).Held numerals := by
  simp [traceJson]

theorem held_metadataJson (numerals : Numerals) (metadata : List (String × String)) :
    (metadataJson metadata).Held numerals := by
  rw [metadataJson, Json.held_obj]
  intro m hm
  obtain ⟨entry, -, rfl⟩ := List.mem_map.mp hm
  exact Json.held_str numerals entry.2

theorem backoffOf_backoffJson (backoff : BackoffPolicy) :
    backoffOf (backoffJson backoff) = some backoff := by
  obtain ⟨kind, delayMs, factor⟩ := backoff
  have hfactor : property asRat (factor.map Json.num) = some factor :=
    property_map fun _ _ => rfl
  have hkind : backoffKindOf (backoffTag kind) = some kind := by
    cases kind <;> rfl
  simp [backoffOf, backoffJson, asMembers, asString, hkind, hfactor]

theorem numberOf_numberJson {n : JsNumber} (h : JsNumber.Finite n) :
    numberOf (numberJson n) = some n := by
  obtain ⟨q, rfl⟩ := h
  rfl

theorem property_number {n : Option JsNumber} (h : ∀ m ∈ n, JsNumber.Finite m) :
    property numberOf (n.map numberJson) = some n :=
  property_map fun m hm => numberOf_numberJson (h m hm)

theorem keepStateOf_members {policy : KeepStatePolicy} (h : FiniteKeepState policy) :
    keepStateOf (.obj (keepStateMembers policy)) = some policy := by
  simp [keepStateOf, asMembers, keepStateOfMembers, keepStateMembers, member_append,
    property_number h.count, property_number h.ageMs]

theorem keepOf_keepJson {keep : KeepPolicy} (h : FiniteKeep keep) :
    keepOf (keepJson keep) = some keep := by
  obtain ⟨completed, failed, cancelled, flat⟩ := keep
  have hstate : ∀ {o : Option KeepStatePolicy}, (∀ p ∈ o, FiniteKeepState p) →
      property keepStateOf (o.map fun p => Json.obj (keepStateMembers p)) = some o :=
    fun ho => property_map fun p hp => keepStateOf_members (ho p hp)
  have hcompleted := hstate h.completed
  have hfailed := hstate h.failed
  have hcancelled := hstate h.cancelled
  rw [keepJson]
  dsimp only at hcompleted hfailed hcancelled ⊢
  generalize (completed.map fun p => Json.obj (keepStateMembers p)) = cs at hcompleted ⊢
  generalize (failed.map fun p => Json.obj (keepStateMembers p)) = fs at hfailed ⊢
  generalize (cancelled.map fun p => Json.obj (keepStateMembers p)) = xs at hcancelled ⊢
  cases flat with
  | none =>
    have hnone : property numberOf none = some none := rfl
    simp [keepOf, asMembers, member_append, keepStateOfMembers, hcompleted, hfailed, hcancelled, hnone]
  | some flat =>
    obtain ⟨hflat, hne⟩ := h.flat flat rfl
    simp [keepOf, asMembers, member_append, keepStateOfMembers, keepStateMembers, hcompleted, hfailed,
      hcancelled, property_number hflat.count, property_number hflat.ageMs, hne]

theorem traceOf_traceJson (trace : TraceContext) : traceOf (traceJson trace) = some trace := by
  simp [traceOf, traceJson, asMembers, asString, asBool]

theorem parentOf_parentJson (parent : ParentEnvelope) :
    parentOf (parentJson parent) = some parent := by
  simp [parentOf, parentJson, asMembers, asString]

theorem metadataOf_metadataJson (metadata : List (String × String)) :
    metadataOf (metadataJson metadata) = some metadata := by
  rw [metadataOf, metadataJson, asMembers]
  induction metadata with
  | nil => rfl
  | cons entry metadata ih =>
    simp only [Option.bind_eq_bind, Option.bind_some] at ih ⊢
    rw [List.map_cons, List.mapM_cons, ih]
    rfl

end EffectMq.Redis.Wire
