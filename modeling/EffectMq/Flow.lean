import EffectMq.JobStore
import EffectMq.Library.CodeUnits
import EffectMq.Library.Codes

/-! # Flow children

`Flow.ts`: the id of a flow child, and the specs the fan-out runner builds. Payloads, metadata,
policies and the run's span are the handler's and the member definition's business. What the stores
rely on is the id, the envelope and that keys are distinct.
-/

namespace EffectMq
set_option autoImplicit false
set_option maxHeartbeats 250000

variable {V : Type}

/-- The `length` of a JavaScript string. -/
def jsLength (s : String) : ℕ := (CodeUnits.units s).length

theorem jsLength_weight (s : String) :
    jsLength s = Codes.weight (fun c => (CodeUnits.ofChar c).length) s.toList :=
  Codes.length_flatMap_weight CodeUnits.ofChar s.toList

/-- Both variable boundaries are pinned by a length prefix. -/
def childJobId (parentStoreKey : String) (flowId : JobId) (childKey : String) : JobId :=
  "flow/" ++ (jsLength parentStoreKey).repr ++ "." ++ (jsLength flowId).repr ++ "/" ++
    parentStoreKey ++ "/" ++ flowId ++ "/" ++ childKey

theorem childJobId_toList (parentStoreKey : String) (flowId : JobId) (childKey : String) :
    (childJobId parentStoreKey flowId childKey).toList =
      "flow/".toList ++ ((jsLength parentStoreKey).repr.toList ++ '.' ::
        ((jsLength flowId).repr.toList ++ '/' ::
          (parentStoreKey.toList ++ ('/' :: (flowId.toList ++ '/' :: childKey.toList))))) := by
  simp [childJobId, String.toList_append]

/-- Distinct children never share an id. -/
theorem childJobId_injective {k k' f f' c c' : String}
    (h : childJobId k f c = childJobId k' f' c') : k = k' ∧ f = f' ∧ c = c' := by
  have h := congrArg String.toList h
  rw [childJobId_toList, childJobId_toList] at h
  have h := List.append_cancel_left h
  obtain ⟨hk, h⟩ := Codes.cut_decimal (by decide) h
  obtain ⟨hf, h⟩ := Codes.cut_decimal (by decide) h
  rw [jsLength_weight, jsLength_weight] at hk hf
  have hpos := fun c => List.length_pos_iff.mpr (CodeUnits.ofChar_ne_nil c)
  obtain ⟨hkey, h⟩ := Codes.cut_weight hpos hk h
  obtain ⟨hflow, h⟩ := Codes.cut_weight hpos hf (List.cons.inj h).2
  exact ⟨String.toList_inj.mp hkey, String.toList_inj.mp hflow,
    String.toList_inj.mp (List.cons.inj h).2⟩

/-- What `buildSpecs` gives each spec of a flow, and that it rejects empty and duplicate keys. -/
structure Built (parentStoreKey : String) (flowId : JobId) (children : List (FlowChildSpec V)) :
    Prop where
  keys : (children.map (·.childKey)).Nodup
  id : ∀ child ∈ children,
    child.request.id = some (childJobId parentStoreKey flowId child.childKey)
  parent : ∀ child ∈ children, ∃ flowName depth, child.request.parent =
    some ⟨flowName, flowId, child.childKey, parentStoreKey, depth⟩
  dedupe : ∀ child ∈ children, child.request.dedupe = none
  delay : ∀ child ∈ children, child.request.delayMs = 0

end EffectMq
