import Schemaform.Form.State
import Schemaform.Engine.Lifecycle

/-!
# Form.View

What a node shows: its value, what may be done to it, and its findings.

* `isReadOnly`, `isWriteOnly`: the form's flag and the annotations of enclosing scopes.
* `valueState`, `allowedOperations`.
* `findingAttached`, `validationFindingAttached`: which node a finding is shown at.
* `NodeObservation`: all of it, as one record.
* `Form.visibleFindings`: the findings of the whole form, each with the node it is presented at.
-/

namespace Schemaform

structure AllowedOperations where
  inputText : Bool := false
  setValue : Bool := false
  setNull : Bool := false
  removeValue : Bool := false
  replaceValue : Bool := false
  materialize : Bool := false
  appendItem : Bool := false
  removeItem : Bool := false
  moveItem : Bool := false
  toggleChoice : Bool := false
deriving DecidableEq, Repr

inductive ScalarValueState where
  | missing
  | null
  | empty
  | compatible
  | incompatible
deriving DecidableEq, Repr

def SemanticKind.isScalar : SemanticKind → Bool
  | .string | .number | .integer | .boolean | .null | .choice => true
  | .fixedObject | .homogeneousArray => false

def SemanticKind.isTextual : SemanticKind → Bool
  | .string | .number | .integer => true
  | _ => false

def definitionHasConcreteValue (definition : DefinitionNode) : Bool :=
  match definition.semanticKind with
  | some .string | some .number | some .integer | some .boolean => true
  | some .choice => definition.choiceOptions.any fun option => !option.isNull
  | _ => false

namespace NodeView

variable (node : NodeView)

/-! ## Data -/

def currentData : Option Value := node.binding.bind fun binding => binding.resolve node.form.formData

def parentIsObject : Bool :=
  node.binding.any fun binding => bindingParentIsObject binding node.form.formData

def editBuffer : Option String :=
  node.binding.bind fun binding => (node.form.engine.control binding).bind (·.editBuffer)

def parseBlocker : Option Engine.ParseBlocker :=
  node.binding.bind fun binding => (node.form.engine.control binding).bind (·.parseBlocker)

def isTouched : Bool := node.binding.any node.form.engine.bindingIsTouched

def isDirty : Bool := node.binding.any node.form.engine.boundValueIsDirty

def valueState : Option ScalarValueState :=
  if !node.definition.semanticKind.any SemanticKind.isScalar then none
  else
    match node.currentData with
    | none => some .missing
    | some value =>
      if value.isNull then some .null
      else
        let compatible := node.binding.any fun binding =>
          (node.form.engine.controlAcceptsValue binding value).getD false
        if compatible && value.asString == some "" then some .empty
        else some (if compatible then .compatible else .incompatible)

/-! ## Annotations -/

/-- Whether the node or an enclosing scope carries an annotation. -/
def hasAnnotation (isAnnotated : DataSchemaAnnotations → Bool) : Bool :=
  isAnnotated node.definition.dataSchemaAnnotations ||
  node.identity.item.isSome &&
    node.form.definition.inner.templateHasAnnotation node.identity.node isAnnotated ||
  node.binding.any fun binding =>
    node.form.definition.inner.bindingHasAnnotation binding isAnnotated

def isReadOnly : Bool := node.form.readOnly || node.hasAnnotation (·.readOnly)

def isWriteOnly : Bool := node.hasAnnotation (·.writeOnly)

/-! ## Operations -/

/-- Whether an array holds a member that is none of the node's options. -/
def hasMemberOutsideChoiceOptions (array : Value) : Bool :=
  (array.asArray.getD []).any fun member =>
    !node.definition.choiceOptions.any (jsonValuesEqual · member)

def arrayOperations : AllowedOperations :=
  match node.definition.binding with
  | none => {}
  | some binding =>
    { appendItem := node.form.engine.arrayCanAppend binding
      removeItem := node.form.engine.arrayCanRemove binding
      moveItem := node.form.engine.arrayCanMove binding
      toggleChoice := node.form.engine.arrayCanToggleChoice binding
      replaceValue := node.currentData.any fun value =>
        !value.isArray || node.definition.multipleChoice && node.hasMemberOutsideChoiceOptions value
      removeValue := node.currentData.isSome && !node.definition.required
      materialize := node.currentData.isNone && node.parentIsObject }

def objectOperations : AllowedOperations where
  replaceValue := node.currentData.any fun value => !value.isObject
  removeValue := node.currentData.isSome && !node.definition.required
  materialize := node.currentData.isNone && node.parentIsObject

def scalarOperations (state : ScalarValueState) : AllowedOperations :=
  let definition := node.definition
  let canWriteMissing := state != .missing || node.parentIsObject
  let hasConcreteValue := definitionHasConcreteValue definition
  { inputText := definition.semanticKind.any SemanticKind.isTextual && canWriteMissing &&
      (state == .missing || state == .empty || state == .compatible ||
        state == .null && definition.acceptsNull)
    setValue := canWriteMissing &&
      ((state == .missing || state == .null && definition.acceptsNull) && hasConcreteValue ||
        (state == .empty || state == .compatible) &&
          (definition.semanticKind == some .boolean ||
            definition.semanticKind == some .choice && definition.choiceSelectable))
    setNull := definition.acceptsNull && state != .null && canWriteMissing
    removeValue := !definition.required && state != .missing
    replaceValue :=
      hasConcreteValue && (state == .incompatible || state == .null && !definition.acceptsNull) ||
      node.isWriteOnly && hasConcreteValue && (state == .empty || state == .compatible) }

def allowedOperations : AllowedOperations :=
  if node.isReadOnly then {}
  else if node.definition.semanticKind = some .homogeneousArray then node.arrayOperations
  else if node.definition.semanticKind = some .fixedObject then node.objectOperations
  else
    match node.valueState with
    | none => {}
    | some state => node.scalarOperations state

/-! ## Findings -/

/-- The location is one of the array's items. -/
def isDirectItemLocation (array location : Pointer) : Bool :=
  location.splitBack.any fun (parent, index) => parent == array && (Token.toIndex index).isSome

def findingAttached (location : Pointer) : Bool :=
  match node.binding with
  | some binding =>
    binding == location ||
    node.definition.multipleChoice && isDirectItemLocation binding location
  | none => node.identity == node.form.root && (node.form.identityForBinding location).isNone

end NodeView

/-- A missing property is repaired at its own control, not at the object that lacks it. -/
def validationTargetLocation (finding : ValidationFinding) : Pointer :=
  match finding.parameters with
  | .object members =>
    match SortedMap.get "property" members with
    | some (.string property) =>
      if finding.code = "required" then finding.instanceLocation ++ [property]
      else finding.instanceLocation
    | _ => finding.instanceLocation
  | _ => finding.instanceLocation

namespace Form

variable (form : Form)

def validationFindings : List ValidationFinding :=
  match form.validation with
  | .invalid findings _ => findings
  | .valid | .indeterminate _ => []

def findingVisible (visibility : FindingVisibility) (location : Pointer) : Bool :=
  match visibility with
  | .immediate => true
  | .submissionOnly => form.engine.submissionAttempted
  | .touchedOrSubmission =>
    form.engine.submissionAttempted || form.engine.bindingIsTouched location

def validationFindingVisible (finding : ValidationFinding) : Bool :=
  form.findingVisible form.findingVisibility.validation (validationTargetLocation finding)

def externalFindingVisible (finding : ExternalFinding) : Bool :=
  form.findingVisible form.findingVisibility.external finding.instanceLocation

def aggregateValidationOutcomeVisible : Bool :=
  match form.findingVisibility.validation with
  | .immediate => true
  | .touchedOrSubmission | .submissionOnly => form.engine.submissionAttempted

end Form

inductive FindingObservation where
  | validation (finding : ValidationFinding)
  | validationFindingsTruncated (retained : Nat)
  | indeterminate (reason : IndeterminateReason)
  | capability (finding : CapabilityFinding)
  | external (source : String) (finding : ExternalFinding)
  | parse (kind : Engine.ParseBlocker)
deriving DecidableEq, Repr

structure NodeObservation where
  binding : Option Pointer
  children : List InstanceIdentity
  currentData : Option Value
  editBuffer : Option String
  allowedOperations : AllowedOperations
  valueState : Option ScalarValueState
  readOnly : Bool
  touched : Bool
  dirty : Bool
  findings : List FindingObservation
deriving DecidableEq, Repr

namespace NodeView

variable (node : NodeView)

/-- A redirected finding falls back to its own location when its target is nowhere on the form. -/
def validationFindingAttached (finding : ValidationFinding) : Bool :=
  let target := validationTargetLocation finding
  if target = finding.instanceLocation then node.findingAttached target
  else
    node.binding == some target ||
    node.findingAttached finding.instanceLocation && (node.form.identityForBinding target).isNone

def validationFindings : List ValidationFinding :=
  node.form.validationFindings.filter fun finding =>
    node.validationFindingAttached finding && node.form.validationFindingVisible finding

def capabilityFindings : List CapabilityFinding :=
  node.form.definition.inner.capabilityFindings.filter fun finding =>
    node.findingAttached finding.instanceLocation

def externalFindings : List (String × ExternalFinding) :=
  node.form.externalFindingBatches.flatMap fun batch =>
    (batch.findings.filter fun finding =>
      node.findingAttached finding.instanceLocation && node.form.externalFindingVisible finding).map
      fun finding => (batch.source, finding)

/-- Findings about the whole validation are the root's. -/
def aggregateFindings : List FindingObservation :=
  if node.identity = node.form.root && node.form.aggregateValidationOutcomeVisible then
    match node.form.validation with
    | .invalid findings true => [.validationFindingsTruncated findings.length]
    | .indeterminate reason => [.indeterminate reason]
    | _ => []
  else []

def visibleFindings : List FindingObservation :=
  node.validationFindings.map .validation ++ node.aggregateFindings ++
  node.capabilityFindings.map .capability ++
  node.externalFindings.map (fun (source, finding) => .external source finding) ++
  (node.parseBlocker.map FindingObservation.parse).toList

def observation : NodeObservation where
  binding := node.binding
  children := node.children
  currentData := node.currentData
  editBuffer := node.editBuffer
  allowedOperations := node.allowedOperations
  valueState := node.valueState
  readOnly := node.isReadOnly
  touched := node.isTouched
  dirty := node.isDirty
  findings := node.visibleFindings

end NodeView

namespace Form

variable (form : Form)

def nodeObservation (identity : InstanceIdentity) : Option NodeObservation :=
  (form.node identity).map NodeView.observation

def nodeObservations : List (InstanceIdentity × NodeObservation) :=
  form.instanceIdentities.filterMap fun identity => (form.nodeObservation identity).map (identity, ·)

/-- The findings of one category, node by node. -/
def findingsByNode {α : Type} (findings : NodeView → List α) :
    List (InstanceIdentity × List α) :=
  form.instanceIdentities.map fun identity => (identity, ((form.node identity).map findings).getD [])

def visibleValidationFindingsByNode : List (InstanceIdentity × List ValidationFinding) :=
  form.findingsByNode NodeView.validationFindings

/-- The node a finding at a location belongs to, else the root. -/
def identityForFindingLocation (location : Pointer) : InstanceIdentity :=
  (form.identityForBinding location).getD form.root

end Form

/-- A finding and the node it is presented at. -/
structure FindingView where
  target : InstanceIdentity
  finding : FindingObservation
deriving DecidableEq, Repr

namespace Form

variable (form : Form)

/-- Where a validation finding is presented. -/
def validationTarget (finding : ValidationFinding) : InstanceIdentity :=
  (form.identityForBinding (validationTargetLocation finding)).getD
    (form.identityForFindingLocation finding.instanceLocation)

/-- Findings about the whole validation. -/
def aggregateFindings : List FindingObservation :=
  match form.validation with
  | .invalid findings true =>
    if form.aggregateValidationOutcomeVisible then [.validationFindingsTruncated findings.length]
    else []
  | .indeterminate reason =>
    if form.aggregateValidationOutcomeVisible then [.indeterminate reason] else []
  | _ => []

def visibleFindings : List FindingView :=
  (form.validationFindings.filter form.validationFindingVisible).map
    (fun finding => ⟨form.validationTarget finding, .validation finding⟩) ++
  form.aggregateFindings.map (fun finding => ⟨form.root, finding⟩) ++
  form.definition.inner.capabilityFindings.map (fun finding =>
    ⟨form.identityForFindingLocation finding.instanceLocation, .capability finding⟩) ++
  (form.externalFindingBatches.flatMap fun batch =>
    (batch.findings.filter form.externalFindingVisible).map fun finding =>
      ⟨form.identityForFindingLocation finding.instanceLocation, .external batch.source finding⟩) ++
  form.instanceIdentities.filterMap fun target =>
    ((form.node target).bind NodeView.parseBlocker).map fun kind => ⟨target, .parse kind⟩

def visibleExternalFindingsByNode : List (InstanceIdentity × List (String × ExternalFinding)) :=
  form.findingsByNode NodeView.externalFindings

/-- Every node but the root that shows an external finding. -/
def visibleExternalFindingTargets : List InstanceIdentity :=
  form.instanceIdentities.filter fun identity =>
    identity != form.root && (form.node identity).any fun node => !node.externalFindings.isEmpty

end Form

end Schemaform
