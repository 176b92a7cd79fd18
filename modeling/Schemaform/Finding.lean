import Schemaform.Json.Encode
import Schemaform.Json.Pointer

/-!
# Finding

What a form reports about its data.

* `ValidationFinding`, `ExternalFinding`, `ExternalFindingBatch`, `CapabilityFinding`.
* `Validator`, `validateWithLimits`: the bounded collection of validator errors into an `Outcome`.
* `compareFindings`, `compareExternalFindings`: the presentation orders.
-/

namespace Schemaform

structure SchemaLocation where
  resource : String
  pointer : Pointer
deriving DecidableEq, Repr

structure ValidationFinding where
  code : String
  instanceLocation : Pointer
  keywordLocation : SchemaLocation
  parameters : Value
deriving DecidableEq, Repr

structure ExternalFinding where
  code : String
  instanceLocation : Pointer
  parameters : Value
  blocking : Bool
deriving DecidableEq, Repr

inductive CapabilitySeverity where
  | info
  | warning
  | blocking
deriving DecidableEq, Repr

structure CapabilityFinding where
  code : String
  instanceLocation : Pointer
  keywordLocation : SchemaLocation
  parameters : Value
  severity : CapabilitySeverity
deriving DecidableEq, Repr

def CapabilityFinding.isBlocking (finding : CapabilityFinding) : Bool :=
  finding.severity == .blocking

/-- The reason code of a validation that could not complete. -/
structure IndeterminateReason where
  code : String
deriving DecidableEq, Repr

/-- Form-scoped revision of the data. -/
structure DataRevision where
  form : Nat
  revision : Nat
deriving DecidableEq, Repr

/-- Form-scoped revision of all observable state. -/
structure StateRevision where
  form : Nat
  revision : Nat
deriving DecidableEq, Repr

structure ExternalFindingBatch where
  source : String
  revision : DataRevision
  findings : List ExternalFinding
deriving DecidableEq, Repr

/-! ## Orders -/

def comparePointers (left right : Pointer) : Ordering := compare left.text right.text

def compareFindings (left right : ValidationFinding) : Ordering :=
  (comparePointers left.instanceLocation right.instanceLocation)
  |>.then (compare left.keywordLocation.resource right.keywordLocation.resource)
  |>.then (comparePointers left.keywordLocation.pointer right.keywordLocation.pointer)
  |>.then (compare left.code right.code)
  |>.then (compare left.parameters.text right.parameters.text)

def compareExternalFindings (left right : ExternalFinding) : Ordering :=
  (comparePointers left.instanceLocation right.instanceLocation)
  |>.then (compare left.code right.code)
  |>.then (compare left.blocking right.blocking)
  |>.then (compare left.parameters.text right.parameters.text)

instance : Std.TransCmp compareExternalFindings :=
  inferInstanceAs (Std.TransCmp (compareLex (compareLex (compareLex
    (compareOn fun finding : ExternalFinding => finding.instanceLocation.text)
    (compareOn (·.code))) (compareOn (·.blocking))) (compareOn (·.parameters.text))))

/-! ## Validation -/

/-- One error of the validator library, seen through `evaluator_failed` and through `translate`,
which takes the bound on a parameter's encoded bytes. -/
structure ValidationError where
  evaluatorFailed : Bool
  translate : Nat → ValidationFinding

/-- The compiled validator: the errors it iterates for a value. -/
structure Validator where
  iterErrors : Value → List ValidationError

inductive Outcome where
  | valid
  | invalid (findings : List ValidationFinding) (truncated : Bool)
  | indeterminate (reason : IndeterminateReason)
deriving DecidableEq, Repr

/-- The index `Iterator::max_by` selects: the last one among the greatest. -/
def largestIndex : List ValidationFinding → Nat
  | [] => 0
  | findings =>
    (findings.zipIdx.foldl (fun (best : Option (ValidationFinding × Nat)) candidate =>
      match best with
      | none => some candidate
      | some best => if (compareFindings best.1 candidate.1).isGT then some best else some candidate)
      none).elim 0 Prod.snd

/-- Keep a new finding while there is room, and else the smaller ones. -/
def retainFinding (maximum : Nat) (findings : List ValidationFinding) (truncated : Bool)
    (finding : ValidationFinding) : List ValidationFinding × Bool :=
  if finding ∈ findings then (findings, truncated)
  else if findings.length < maximum then (findings ++ [finding], truncated)
  else
    let largest := largestIndex findings
    match findings[largest]? with
    | none => (findings, true)
    | some current =>
      if (compareFindings finding current).isLT then (findings.set largest finding, true)
      else (findings, true)

def collectFindings (maximum parameterBytes : Nat) :
    List ValidationError → List ValidationFinding → Bool → Bool → Outcome
  | [], findings, truncated, invalid =>
    if invalid then
      .invalid (findings.insertionSort fun a b => (compareFindings a b).isLE) truncated
    else .valid
  | error :: errors, findings, truncated, _ =>
    if error.evaluatorFailed then .indeterminate ⟨"validator-evaluation-failed"⟩
    else
      let (findings, truncated) :=
        retainFinding maximum findings truncated (error.translate parameterBytes)
      collectFindings maximum parameterBytes errors findings truncated true

def Validator.validateWithLimits (validator : Validator) (formData : Value)
    (maxRetainedFindings maxParameterValueBytes : Nat) : Outcome :=
  collectFindings maxRetainedFindings maxParameterValueBytes (validator.iterErrors formData) []
    false false

end Schemaform
