import EffectMq.Flow
import EffectMq.Schedule

/-! # The specs of a fan-out

`make` and `buildSpecs` of `Flow.ts`: the groups of children a `fanOut` handler returns become the specs
that the parent's store persists. `P` is what handlers pass as a payload. A member's schemas and its
metadata callback are the user's; durations are their milliseconds.
-/

namespace EffectMq
set_option autoImplicit false
set_option maxHeartbeats 250000

variable {P V : Type}

/-! ## Definitions of members -/

/-- `KeepInput` by the keys that are there: the keys of the states, and `count` or `age`. -/
structure KeepInput where
  states : Option KeepPolicy
  flat : Option KeepStatePolicy
  deriving DecidableEq

def normalizeKeep (input : KeepInput) : Except String KeepPolicy :=
  match input.states, input.flat with
  | some _, some _ =>
    .error "effect-mq: `keep` must be either flat { count, age } or split per state, not both"
  | some states, none => .ok states
  | none, flat =>
    let policy := flat.getD ⟨none, none⟩
    .ok { completed := some policy, failed := some policy, cancelled := some policy }

structure JobDefaults where
  priority : ℤ
  attempts : ℤ
  backoff : Option BackoffPolicy
  keep : Option KeepPolicy
  timeoutMs : Option Millis
  deriving DecidableEq

/-- A member definition: `make` validates a payload, `encode` is the encoder of its JSON schema. Both
fail with a message. -/
structure MemberJob (P V : Type) where
  tag : String
  queue : QueueName
  storeKey : String
  defaults : JobDefaults
  make : P → Except String P
  encode : P → Except String V
  metadata : P → List (String × String)

structure ChildOptions where
  metadata : List (String × String) := []
  priority : Option ℤ := none
  attempts : Option ℤ := none
  backoff : Option BackoffPolicy := none
  keep : Option KeepInput := none
  timeoutMs : Option Millis := none
  deriving DecidableEq

structure ChildItem (P : Type) where
  key : String
  payload : P
  options : ChildOptions := {}

/-- The children of one member, by its tag. -/
structure ChildGroup (P : Type) where
  job : String
  items : List (ChildItem P)

structure FlowDefinition (P V : Type) where
  name : String
  parentTag : String
  parentStoreKey : String
  failFast : Bool
  byName : JsMap String (MemberJob P V)

/-- Throws on a member declared twice and on a parent among its own children. -/
def declareMember (name : String) (byName : JsMap String (MemberJob P V)) (child : MemberJob P V) :
    Except String (JsMap String (MemberJob P V)) :=
  if byName.has child.tag then
    .error ("effect-mq: flow \"" ++ name ++ "\" declares child \"" ++ child.tag ++ "\" twice")
  else .ok (byName.set child.tag child)

def FlowDefinition.make (name parentTag parentStoreKey : String) (failFast : Bool)
    (children : List (MemberJob P V)) : Except String (FlowDefinition P V) :=
  (children.foldlM (declareMember name) ∅).bind fun byName =>
    if byName.has parentTag then
      .error ("effect-mq: flow \"" ++ name ++ "\" uses \"" ++ parentTag ++
        "\" as both its parent and one of its own children")
    else .ok { name, parentTag, parentStoreKey, failFast, byName }

/-! ## Building the specs -/

/-- A fan-out dies on a definition bug unrecoverably; what throws besides is an ordinary defect. -/
inductive BuildError
  | unrecoverable (message : String)
  | defect (message : String)
  deriving DecidableEq

/-- The run that fans out. -/
structure FanOutContext where
  jobId : JobId
  parentDepth : ℕ
  span : Option TraceContext
  deriving DecidableEq

section
variable (flow : FlowDefinition P V) (context : FanOutContext)

/-- The id, the envelope and the member's defaults under the item's options. -/
def childRequest (member : MemberJob P V) (item : ChildItem P) (payload : P) (encoded : V)
    (keep : Option KeepPolicy) : EnqueueRequest V where
  id := some (childJobId flow.parentStoreKey context.jobId item.key)
  name := member.tag
  queue := member.queue
  payload := encoded
  metadata := item.options.metadata.foldl (fun record entry => withProperty record entry.1 entry.2)
    (member.metadata payload)
  priority := item.options.priority.getD member.defaults.priority
  attemptsMax := max 1 (item.options.attempts.getD member.defaults.attempts)
  backoff := item.options.backoff.or member.defaults.backoff
  keep := keep
  timeoutMs := item.options.timeoutMs.or member.defaults.timeoutMs
  dedupe := none
  trace := context.span
  parent := some
    { flowName := flow.name, flowId := context.jobId, childKey := item.key,
      parentStoreKey := flow.parentStoreKey, depth := context.parentDepth + 1 }
  delayMs := 0

def childFailed (item : ChildItem P) (what message : String) : BuildError :=
  .unrecoverable ("effect-mq: flow \"" ++ flow.name ++ "\" child \"" ++ item.key ++ "\" payload " ++
    what ++ message)

def childKeep (member : MemberJob P V) (item : ChildItem P) : Except BuildError (Option KeepPolicy) :=
  match item.options.keep with
  | none => .ok member.defaults.keep
  | some input => ((normalizeKeep input).mapError BuildError.defect).map some

/-- The body of the loop over items, past the checks of the key. -/
def buildSpec (member : MemberJob P V) (item : ChildItem P) : Except BuildError (FlowChildSpec V) :=
  ((member.make item.payload).mapError (childFailed flow item "failed validation: ")).bind
    fun payload =>
      ((member.encode payload).mapError (childFailed flow item "failed to encode: ")).bind
        fun encoded =>
          (childKeep member item).map fun keep =>
            { childKey := item.key, storeKey := member.storeKey,
              request := childRequest flow context member item payload encoded keep }

/-- The keys met and the specs built so far. -/
structure Building (V : Type) where
  seen : List String
  specs : List (FlowChildSpec V)

def addItem (member : MemberJob P V) (acc : Building V) (item : ChildItem P) :
    Except BuildError (Building V) :=
  if item.key = "" then
    .error (.unrecoverable
      ("effect-mq: flow \"" ++ flow.name ++ "\" produced a child with an empty key"))
  else if item.key ∈ acc.seen then
    .error (.unrecoverable ("effect-mq: flow \"" ++ flow.name ++
      "\" produced duplicate child key \"" ++ item.key ++ "\""))
  else
    (buildSpec flow context member item).map fun spec =>
      ⟨acc.seen ++ [item.key], acc.specs ++ [spec]⟩

def addGroup (acc : Building V) (group : ChildGroup P) : Except BuildError (Building V) :=
  match flow.byName.get? group.job with
  | none =>
    .error (.unrecoverable ("effect-mq: flow \"" ++ flow.name ++ "\" fanned out to \"" ++ group.job ++
      "\", which is not a declared child"))
  | some member => group.items.foldlM (addItem flow context member) acc

def buildSpecs (groups : List (ChildGroup P)) : Except BuildError (List (FlowChildSpec V)) :=
  if 8 < context.parentDepth + 1 then
    .error (.unrecoverable ("effect-mq: flow \"" ++ flow.name ++
      "\" exceeds the nesting depth limit (8) — flow definitions must not form cycles"))
  else (groups.foldlM (addGroup flow context) ⟨[], []⟩).map (·.specs)

/-! ## What the specs are -/

/-- The spec of a child is known by its key. -/
structure Named (spec : FlowChildSpec V) : Prop where
  id : spec.request.id = some (childJobId flow.parentStoreKey context.jobId spec.childKey)
  parent : spec.request.parent = some
    { flowName := flow.name, flowId := context.jobId, childKey := spec.childKey,
      parentStoreKey := flow.parentStoreKey, depth := context.parentDepth + 1 }
  dedupe : spec.request.dedupe = none
  delay : spec.request.delayMs = 0

/-- The items that went in, one after the other. -/
structure Builds (items : List (ChildItem P)) (acc : Building V) : Prop where
  seen : acc.seen = items.map (·.key)
  keys : acc.specs.map (·.childKey) = items.map (·.key)
  nonempty : ∀ item ∈ items, item.key ≠ ""
  nodup : (items.map (·.key)).Nodup
  named : ∀ spec ∈ acc.specs, Named flow context spec

variable {flow context}

theorem buildSpec_named {member : MemberJob P V} {item : ChildItem P} {spec : FlowChildSpec V}
    (h : buildSpec flow context member item = .ok spec) :
    spec.childKey = item.key ∧ Named flow context spec := by
  unfold buildSpec at h
  cases hmake : member.make item.payload with
  | error message =>
    rw [hmake] at h
    cases h
  | ok payload =>
    rw [hmake] at h
    change ((member.encode payload).mapError _).bind _ = _ at h
    cases hencode : member.encode payload with
    | error message =>
      rw [hencode] at h
      cases h
    | ok encoded =>
      rw [hencode] at h
      change (childKeep member item).map _ = _ at h
      cases hkeep : childKeep member item with
      | error e =>
        rw [hkeep] at h
        cases h
      | ok keep =>
        rw [hkeep] at h
        cases h
        exact ⟨rfl, rfl, rfl, rfl, rfl⟩

theorem Builds.addItem {items : List (ChildItem P)} {acc acc' : Building V}
    (hacc : Builds flow context items acc) {member : MemberJob P V} {item : ChildItem P}
    (h : addItem flow context member acc item = .ok acc') :
    Builds flow context (items ++ [item]) acc' := by
  unfold EffectMq.addItem at h
  split at h
  next => cases h
  next hne =>
    split at h
    next => cases h
    next hfresh =>
      cases hspec : buildSpec flow context member item with
      | error e =>
        rw [hspec] at h
        cases h
      | ok spec =>
        rw [hspec] at h
        cases h
        obtain ⟨hkey, hnamed⟩ := buildSpec_named hspec
        rw [hacc.seen] at hfresh
        refine ⟨?_, ?_, fun other hother => ?_, ?_, fun other hother => ?_⟩
        · rw [List.map_append, hacc.seen]
          rfl
        · rw [List.map_append, List.map_append, hacc.keys, List.map_singleton, hkey]
          rfl
        · rcases List.mem_append.mp hother with hin | hlast
          · exact hacc.nonempty other hin
          · rw [List.mem_singleton.mp hlast]
            exact hne
        · rw [List.map_append, List.nodup_append]
          refine ⟨hacc.nodup, List.nodup_singleton _, fun key hin key' hlast heq => hfresh ?_⟩
          rw [List.map_singleton, List.mem_singleton] at hlast
          rwa [← hlast, ← heq]
        · rcases List.mem_append.mp hother with hin | hlast
          · exact hacc.named other hin
          · rw [List.mem_singleton.mp hlast]
            exact hnamed

theorem Builds.addItems {items : List (ChildItem P)} {acc acc' : Building V}
    (hacc : Builds flow context items acc) {member : MemberJob P V} {more : List (ChildItem P)}
    (h : more.foldlM (EffectMq.addItem flow context member) acc = .ok acc') :
    Builds flow context (items ++ more) acc' := by
  induction more generalizing items acc with
  | nil =>
    cases h
    rwa [List.append_nil]
  | cons item more ih =>
    rw [List.foldlM_cons] at h
    cases hitem : EffectMq.addItem flow context member acc item with
    | error e =>
      rw [hitem] at h
      cases h
    | ok next =>
      rw [hitem] at h
      rw [← List.singleton_append, ← List.append_assoc]
      exact ih (hacc.addItem hitem) h

theorem Builds.addGroups {items : List (ChildItem P)} {acc acc' : Building V}
    (hacc : Builds flow context items acc) {groups : List (ChildGroup P)}
    (h : groups.foldlM (addGroup flow context) acc = .ok acc') :
    Builds flow context (items ++ groups.flatMap (·.items)) acc' := by
  induction groups generalizing items acc with
  | nil =>
    cases h
    rwa [List.flatMap_nil, List.append_nil]
  | cons group groups ih =>
    rw [List.foldlM_cons] at h
    cases hgroup : addGroup flow context acc group with
    | error e =>
      rw [hgroup] at h
      cases h
    | ok next =>
      rw [hgroup] at h
      rw [List.flatMap_cons, ← List.append_assoc]
      refine ih ?_ h
      unfold addGroup at hgroup
      split at hgroup
      next => cases hgroup
      next => exact hacc.addItems hgroup

theorem buildSpecs_builds {groups : List (ChildGroup P)} {specs : List (FlowChildSpec V)}
    (h : buildSpecs flow context groups = .ok specs) :
    context.parentDepth + 1 ≤ 8 ∧
      ∃ seen, Builds flow context (groups.flatMap (·.items)) ⟨seen, specs⟩ := by
  unfold buildSpecs at h
  split at h
  next => cases h
  next hdepth =>
    cases hgroups : groups.foldlM (addGroup flow context) ⟨[], []⟩ with
    | error e =>
      rw [hgroups] at h
      cases h
    | ok acc =>
      rw [hgroups] at h
      cases h
      have hempty : Builds flow context [] (⟨[], []⟩ : Building V) :=
        ⟨rfl, rfl, fun _ h => absurd h List.not_mem_nil, .nil,
          fun _ h => absurd h List.not_mem_nil⟩
      exact ⟨Nat.le_of_not_lt hdepth, acc.seen, hempty.addGroups hgroups⟩

/-- What the stores rely on. -/
theorem buildSpecs_built {groups : List (ChildGroup P)} {specs : List (FlowChildSpec V)}
    (h : buildSpecs flow context groups = .ok specs) :
    Built flow.parentStoreKey context.jobId specs := by
  obtain ⟨-, seen, hbuilds⟩ := buildSpecs_builds h
  refine ⟨?_, fun spec hspec => (hbuilds.named spec hspec).id, fun spec hspec => ?_,
    fun spec hspec => (hbuilds.named spec hspec).dedupe,
    fun spec hspec => (hbuilds.named spec hspec).delay⟩
  · rw [hbuilds.keys]
    exact hbuilds.nodup
  · exact ⟨_, _, (hbuilds.named spec hspec).parent⟩

/-! ## Which inputs are rejected -/

theorem addItem_seen {member : MemberJob P V} {item : ChildItem P} {acc acc' : Building V}
    (h : addItem flow context member acc item = .ok acc') : acc'.seen = acc.seen ++ [item.key] := by
  unfold addItem at h
  split at h
  next => cases h
  next =>
    split at h
    next => cases h
    next =>
      cases hspec : buildSpec flow context member item with
      | error e =>
        rw [hspec] at h
        cases h
      | ok spec =>
        rw [hspec] at h
        cases h
        rfl

theorem addItems_seen {member : MemberJob P V} {items : List (ChildItem P)} {acc acc' : Building V}
    (h : items.foldlM (addItem flow context member) acc = .ok acc') :
    acc'.seen = acc.seen ++ items.map (·.key) := by
  induction items generalizing acc with
  | nil =>
    cases h
    exact (List.append_nil _).symm
  | cons item items ih =>
    rw [List.foldlM_cons] at h
    cases hitem : addItem flow context member acc item with
    | error e =>
      rw [hitem] at h
      cases h
    | ok next =>
      rw [hitem] at h
      rw [ih h, addItem_seen hitem, List.append_assoc]
      rfl

/-- An item is added exactly when its key is new and not empty and its spec can be built. -/
theorem addItem_succeeds {member : MemberJob P V} {acc : Building V} {item : ChildItem P} :
    (∃ acc', addItem flow context member acc item = .ok acc') ↔
      item.key ≠ "" ∧ item.key ∉ acc.seen ∧ ∃ spec, buildSpec flow context member item = .ok spec := by
  unfold addItem
  split
  next hempty => simp [hempty]
  next hne =>
    split
    next hin => simp [hin]
    next hfresh =>
      cases hspec : buildSpec flow context member item with
      | error e => simp [Except.map]
      | ok spec => simp [Except.map, hne, hfresh]

/-- The key of every item is new to those before it. -/
structure Addable (flow : FlowDefinition P V) (context : FanOutContext) (member : MemberJob P V)
    (seen : List String) (item : ChildItem P) : Prop where
  nonempty : item.key ≠ ""
  fresh : item.key ∉ seen
  spec : ∃ spec, buildSpec flow context member item = .ok spec

theorem addItems_succeed {member : MemberJob P V} {items : List (ChildItem P)} {acc : Building V} :
    (∃ acc', items.foldlM (addItem flow context member) acc = .ok acc') ↔
      (∀ item ∈ items, Addable flow context member acc.seen item) ∧
        (items.map (·.key)).Nodup := by
  induction items generalizing acc with
  | nil => exact ⟨fun _ => ⟨fun _ h => absurd h List.not_mem_nil, .nil⟩, fun _ => ⟨acc, rfl⟩⟩
  | cons item items ih =>
    have hhead : (∃ acc', addItem flow context member acc item = .ok acc') ↔ _ := addItem_succeeds
    rw [List.foldlM_cons, List.map_cons, List.nodup_cons, List.forall_mem_cons]
    constructor
    · rintro ⟨acc', h⟩
      cases hitem : addItem flow context member acc item with
      | error e =>
        rw [hitem] at h
        cases h
      | ok next =>
        rw [hitem] at h
        obtain ⟨hitems, hnodup⟩ := ih.mp ⟨acc', h⟩
        obtain ⟨hne, hfresh, hspec⟩ := hhead.mp ⟨next, hitem⟩
        rw [addItem_seen hitem] at hitems
        refine ⟨⟨⟨hne, hfresh, hspec⟩, fun other hother => ?_⟩, fun hin => ?_, hnodup⟩
        · have hlater := hitems other hother
          exact ⟨hlater.nonempty, fun h => hlater.fresh (List.mem_append_left _ h), hlater.spec⟩
        · obtain ⟨other, hother, hkey⟩ := List.mem_map.mp hin
          refine (hitems other hother).fresh (List.mem_append_right _ ?_)
          rw [hkey]
          exact List.mem_singleton_self _
    · rintro ⟨⟨hitem, hitems⟩, hnotin, hnodup⟩
      obtain ⟨next, hnext⟩ := hhead.mpr ⟨hitem.nonempty, hitem.fresh, hitem.spec⟩
      have hlater : ∀ other ∈ items, Addable flow context member next.seen other := by
        intro other hother
        have hadd := hitems other hother
        refine ⟨hadd.nonempty, fun hin => ?_, hadd.spec⟩
        rw [addItem_seen hnext] at hin
        rcases List.mem_append.mp hin with hin | hlast
        · exact hadd.fresh hin
        · exact hnotin (List.mem_map.mpr ⟨other, hother, List.mem_singleton.mp hlast⟩)
      rw [hnext]
      exact ih.mpr ⟨hlater, hnodup⟩

/-- The members are declared and the specs of their items can be built. -/
def Declared (flow : FlowDefinition P V) (context : FanOutContext) (group : ChildGroup P) : Prop :=
  ∃ member, flow.byName.get? group.job = some member ∧
    ∀ item ∈ group.items, ∃ spec, buildSpec flow context member item = .ok spec

theorem addGroup_succeeds {acc : Building V} {group : ChildGroup P} :
    (∃ acc', addGroup flow context acc group = .ok acc') ↔
      Declared flow context group ∧ (∀ item ∈ group.items, item.key ≠ "" ∧ item.key ∉ acc.seen) ∧
        (group.items.map (·.key)).Nodup := by
  unfold addGroup
  cases hmember : flow.byName.get? group.job with
  | none =>
    constructor
    · rintro ⟨_, h⟩
      cases h
    · rintro ⟨⟨member, hsome, -⟩, -⟩
      rw [hmember] at hsome
      cases hsome
  | some member =>
    dsimp only
    rw [addItems_succeed]
    constructor
    · rintro ⟨hitems, hnodup⟩
      exact ⟨⟨member, hmember, fun item hitem => (hitems item hitem).spec⟩,
        fun item hitem => ⟨(hitems item hitem).nonempty, (hitems item hitem).fresh⟩, hnodup⟩
    · rintro ⟨⟨member', hsome, hspecs⟩, hkeys, hnodup⟩
      rw [hmember] at hsome
      cases hsome
      exact ⟨fun item hitem => ⟨(hkeys item hitem).1, (hkeys item hitem).2, hspecs item hitem⟩, hnodup⟩

theorem addGroup_seen {acc acc' : Building V} {group : ChildGroup P}
    (h : addGroup flow context acc group = .ok acc') :
    acc'.seen = acc.seen ++ group.items.map (·.key) := by
  unfold addGroup at h
  split at h
  next => cases h
  next => exact addItems_seen h

theorem addGroups_succeed {groups : List (ChildGroup P)} {acc : Building V} :
    (∃ acc', groups.foldlM (addGroup flow context) acc = .ok acc') ↔
      (∀ group ∈ groups, Declared flow context group) ∧
      (∀ item ∈ groups.flatMap (·.items), item.key ≠ "" ∧ item.key ∉ acc.seen) ∧
        ((groups.flatMap (·.items)).map (·.key)).Nodup := by
  induction groups generalizing acc with
  | nil =>
    exact ⟨fun _ => ⟨fun _ h => absurd h List.not_mem_nil, fun _ h => absurd h List.not_mem_nil, .nil⟩,
      fun _ => ⟨acc, rfl⟩⟩
  | cons group groups ih =>
    have hhead : (∃ acc', addGroup flow context acc group = .ok acc') ↔ _ := addGroup_succeeds
    rw [List.foldlM_cons, List.flatMap_cons, List.map_append, List.nodup_append,
      List.forall_mem_cons, List.forall_mem_append]
    constructor
    · rintro ⟨acc', h⟩
      cases hgroup : addGroup flow context acc group with
      | error e =>
        rw [hgroup] at h
        cases h
      | ok next =>
        rw [hgroup] at h
        obtain ⟨hdeclared, hitems, hnodup⟩ := ih.mp ⟨acc', h⟩
        obtain ⟨hfirst, hkeys, hown⟩ := hhead.mp ⟨next, hgroup⟩
        rw [addGroup_seen hgroup] at hitems
        refine ⟨⟨hfirst, hdeclared⟩, ⟨hkeys, fun item hitem => ⟨(hitems item hitem).1, fun hin =>
          (hitems item hitem).2 (List.mem_append_left _ hin)⟩⟩, hown, hnodup, ?_⟩
        intro key hin key' hlater heq
        obtain ⟨item, hitem, rfl⟩ := List.mem_map.mp hlater
        exact (hitems item hitem).2 (List.mem_append_right _ (heq ▸ hin))
    · rintro ⟨⟨hfirst, hdeclared⟩, ⟨hkeys, hitems⟩, hown, hnodup, hapart⟩
      obtain ⟨next, hnext⟩ := hhead.mpr ⟨hfirst, hkeys, hown⟩
      have hlater : ∀ item ∈ groups.flatMap (·.items), item.key ≠ "" ∧ item.key ∉ next.seen := by
        intro item hitem
        refine ⟨(hitems item hitem).1, fun hin => ?_⟩
        rw [addGroup_seen hnext] at hin
        rcases List.mem_append.mp hin with hin | hin
        · exact (hitems item hitem).2 hin
        · exact hapart _ hin _ (List.mem_map_of_mem hitem) rfl
      rw [hnext]
      exact ih.mpr ⟨hdeclared, hlater, hnodup⟩

/-- A fan-out is rejected for its depth, for a member or a payload, or for keys that collide. -/
theorem buildSpecs_succeeds {groups : List (ChildGroup P)} :
    (∃ specs, buildSpecs flow context groups = .ok specs) ↔
      context.parentDepth + 1 ≤ 8 ∧ (∀ group ∈ groups, Declared flow context group) ∧
      (∀ item ∈ groups.flatMap (·.items), item.key ≠ "") ∧
        ((groups.flatMap (·.items)).map (·.key)).Nodup := by
  have hgroups : (∃ acc', groups.foldlM (addGroup flow context) (⟨[], []⟩ : Building V) = .ok acc') ↔
      _ := addGroups_succeed
  unfold buildSpecs
  split
  next hdeep =>
    constructor
    · rintro ⟨_, h⟩
      cases h
    · exact fun h => absurd h.1 (Nat.not_le_of_lt hdeep)
  next hdepth =>
    constructor
    · rintro ⟨specs, h⟩
      cases hfold : groups.foldlM (addGroup flow context) (⟨[], []⟩ : Building V) with
      | error e =>
        rw [hfold] at h
        cases h
      | ok acc =>
        obtain ⟨hdeclared, hkeys, hnodup⟩ := hgroups.mp ⟨acc, hfold⟩
        exact ⟨Nat.le_of_not_lt hdepth, hdeclared, fun item hitem => (hkeys item hitem).1, hnodup⟩
    · rintro ⟨-, hdeclared, hkeys, hnodup⟩
      obtain ⟨acc, hfold⟩ := hgroups.mpr ⟨hdeclared,
        fun item hitem => ⟨hkeys item hitem, List.not_mem_nil⟩, hnodup⟩
      rw [hfold]
      exact ⟨acc.specs, rfl⟩

/-! ## Ids never alias -/

/-- What a successful build promises of its specs. -/
structure NeverAliases (flow : FlowDefinition P V) (context : FanOutContext)
    (groups : List (ChildGroup P)) (specs : List (FlowChildSpec V)) : Prop where
  /-- One spec per item, in order. -/
  keys : specs.map (·.childKey) = (groups.flatMap (·.items)).map (·.key)
  nonempty : ∀ spec ∈ specs, spec.childKey ≠ ""
  nodupKeys : (specs.map (·.childKey)).Nodup
  nodupIds : (specs.map (·.request.id)).Nodup
  named : ∀ spec ∈ specs, Named flow context spec
  depth : context.parentDepth + 1 ≤ 8

theorem buildSpecs_neverAliases {groups : List (ChildGroup P)} {specs : List (FlowChildSpec V)}
    (h : buildSpecs flow context groups = .ok specs) : NeverAliases flow context groups specs := by
  obtain ⟨hdepth, seen, hbuilds⟩ := buildSpecs_builds h
  have hnodup : (specs.map (·.childKey)).Nodup := by
    rw [hbuilds.keys]
    exact hbuilds.nodup
  have hids : specs.map (·.request.id) =
      (specs.map (·.childKey)).map fun key =>
        some (childJobId flow.parentStoreKey context.jobId key) := by
    rw [List.map_map]
    exact List.map_congr_left fun spec hspec => (hbuilds.named spec hspec).id
  refine ⟨hbuilds.keys, fun spec hspec => ?_, hnodup, ?_, hbuilds.named, hdepth⟩
  · have hin : spec.childKey ∈ (groups.flatMap (·.items)).map (·.key) := by
      rw [← hbuilds.keys]
      exact List.mem_map_of_mem hspec
    obtain ⟨item, hitem, hkey⟩ := List.mem_map.mp hin
    rw [← hkey]
    exact hbuilds.nonempty item hitem
  · rw [hids]
    exact hnodup.map fun key key' heq => (childJobId_injective (Option.some.inj heq)).2.2

/-- Two specs with one id are the same child of the same flow and parent store. -/
theorem Named.unique {P' V' : Type} {flow' : FlowDefinition P' V'} {context' : FanOutContext}
    {spec : FlowChildSpec V} {spec' : FlowChildSpec V'} (hspec : Named flow context spec)
    (hspec' : Named flow' context' spec') (h : spec.request.id = spec'.request.id) :
    flow.parentStoreKey = flow'.parentStoreKey ∧ context.jobId = context'.jobId ∧
      spec.childKey = spec'.childKey := by
  rw [hspec.id, hspec'.id] at h
  exact childJobId_injective (Option.some.inj h)

end

/-- Children of different flows, parents or parent stores never share an id. -/
theorem child_ids_never_alias (P P' V V' : Type) :
    (∀ key flowId child key' flowId' child' : String,
      childJobId key flowId child = childJobId key' flowId' child' →
        key = key' ∧ flowId = flowId' ∧ child = child') ∧
    (∀ (flow : FlowDefinition P V) (context : FanOutContext) (groups : List (ChildGroup P))
      (specs : List (FlowChildSpec V)),
      buildSpecs flow context groups = .ok specs → NeverAliases flow context groups specs) ∧
    ∀ (flow : FlowDefinition P V) (flow' : FlowDefinition P' V') (context context' : FanOutContext)
      (groups : List (ChildGroup P)) (groups' : List (ChildGroup P'))
      (specs : List (FlowChildSpec V)) (specs' : List (FlowChildSpec V')),
      buildSpecs flow context groups = .ok specs → buildSpecs flow' context' groups' = .ok specs' →
      ∀ spec ∈ specs, ∀ spec' ∈ specs', spec.request.id = spec'.request.id →
        flow.parentStoreKey = flow'.parentStoreKey ∧ context.jobId = context'.jobId ∧
          spec.childKey = spec'.childKey := by
  refine ⟨fun _ _ _ _ _ _ => childJobId_injective, fun _ _ _ _ => buildSpecs_neverAliases, ?_⟩
  intro flow flow' context context' groups groups' specs specs' h h' spec hspec spec' hspec' heq
  exact ((buildSpecs_neverAliases h).named spec hspec).unique
    ((buildSpecs_neverAliases h').named spec' hspec') heq

/-- A flow with one member, whose payloads are all good. -/
def resizeFlow : FlowDefinition Unit Unit where
  name := "thumbnails"
  parentTag := "import"
  parentStoreKey := "store/a"
  failFast := false
  byName := JsMap.single "resize"
    ⟨"resize", "images", "store/b", ⟨0, 3, none, none, none⟩, .ok, .ok, fun _ => []⟩

example : (buildSpecs resizeFlow ⟨"j-1", 7, none⟩
    [⟨"resize", [⟨"1", (), {}⟩, ⟨"2/3", (), {}⟩]⟩, ⟨"resize", [⟨"2", (), {}⟩]⟩]).toOption.map
      (·.filterMap (·.request.id)) =
    some ["flow/7.3/store/a/j-1/1", "flow/7.3/store/a/j-1/2/3", "flow/7.3/store/a/j-1/2"] := by
  decide +kernel

end EffectMq
