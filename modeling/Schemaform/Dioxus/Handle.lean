import Schemaform.Form.Commit
import Schemaform.Form.Report
import Schemaform.Json.Encode

/-!
# Dioxus.Handle

The handle a browser holds on one form, and the signals it publishes changes through.

* `projectSummary`, `projectForm`, `projectNode`: what readers are given.
* `HandleInner`, `FormHandle.new`: the form, the version signals and the projections beside it.
* `applyTransition`, `advanceLifecycle`: what a call that succeeded publishes.
* `applyOperation` and the calls of the source, each an instance of it.
* `FormReader.read`, `NodeReader.read`.
* `handleSystem`: a handle under any calls and its disposal.
-/

namespace Schemaform

def Operation.restarts : Operation → Bool
  | .reset | Operation.reinitialize _ => true
  | _ => false

namespace Dioxus

/-! ## Projections -/

/-- Labels of targets are left out: a node keeps its definition, so they never change. -/
structure SummaryTarget where
  binding : Option Pointer
deriving DecidableEq, Repr

/-- Targets follow the order of the findings they are the targets of. -/
structure SummaryProjection where
  root : InstanceIdentity
  findings : List FindingView
  targets : List (InstanceIdentity × SummaryTarget)
deriving DecidableEq, Repr

def projectSummary (form : Form) : SummaryProjection where
  root := form.root
  findings := form.visibleFindings
  targets := form.visibleFindings.filterMap fun finding =>
    (form.node finding.target).map fun node => (finding.target, ⟨node.binding⟩)

structure FormProjection where
  root : InstanceIdentity
  dataRevision : DataRevision
  stateRevision : StateRevision
  submissionAttempted : Bool
  readOnly : Bool
  findings : List FindingView
deriving DecidableEq, Repr

def projectForm (form : Form) : FormProjection where
  root := form.root
  dataRevision := form.dataRevision
  stateRevision := form.stateRevision
  submissionAttempted := form.engine.submissionAttempted
  readOnly := form.readOnly
  findings := form.visibleFindings

/-- `choice-{index}` in the order of the definition. -/
abbrev ChoiceIdentity := String

structure ChoiceOptionProjection where
  identity : ChoiceIdentity
  value : Value
  selected : Bool
deriving DecidableEq, Repr

structure CollectionItemProjection where
  identity : InstanceIdentity
  item : ItemIdentity
deriving DecidableEq, Repr

structure NodeProjection where
  identity : InstanceIdentity
  binding : Option Pointer
  item : Option ItemIdentity
  children : List InstanceIdentity
  collectionItems : List CollectionItemProjection
  creationSeed : Option Value
  value : Option String
  currentData : Option Value
  valueState : Option ScalarValueState
  allowedOperations : AllowedOperations
  readOnly : Bool
  writeOnly : Bool
  required : Bool
  nullable : Bool
  editBuffer : Option String
  parseBlocker : Option Engine.ParseBlocker
  validationFindings : List ValidationFinding
  capabilityFindings : List CapabilityFinding
  externalFindings : List (String × ExternalFinding)
  touched : Bool
  dirty : Bool
  choiceOptions : List ChoiceOptionProjection
  choiceSelectable : Bool
deriving DecidableEq, Repr

/-- Every option the current data select: at most one of a scalar choice, one for each member of a
multiple choice. -/
def selectedChoices (node : NodeView) : List Value :=
  node.definition.choiceOptions.filter fun option =>
    match node.currentData with
    | none => false
    | some current =>
      if node.definition.multipleChoice then
        (current.asArray.getD []).any fun member => jsonValuesEqual option member
      else jsonValuesEqual option current

/-- `label` is the compiled label of the option with a value. -/
def projectNode (label : Value → String) (node : NodeView) : NodeProjection where
  identity := node.identity
  binding := node.binding
  item := node.identity.item
  children := node.children
  collectionItems :=
    if node.definition.semanticKind = some .homogeneousArray then
      node.children.filterMap fun identity => do
        let child ← node.form.node identity
        let item ← child.identity.item
        return ⟨identity, item⟩
    else []
  creationSeed := node.definition.creationSeed
  value := node.displayText label
  currentData := node.currentData
  valueState := node.valueState
  allowedOperations := node.allowedOperations
  readOnly := node.isReadOnly
  writeOnly := node.isWriteOnly
  required := node.definition.required
  nullable := node.definition.acceptsNull
  editBuffer := node.editBuffer
  parseBlocker := node.parseBlocker
  validationFindings := node.validationFindings
  capabilityFindings := node.capabilityFindings
  externalFindings := node.externalFindings
  touched := node.isTouched
  dirty := node.isDirty
  choiceOptions := node.definition.choiceOptions.mapIdx fun index option =>
    ⟨"choice-" ++ Nat.repr index, option, (selectedChoices node).contains option⟩
  choiceSelectable := node.definition.choiceSelectable

/-- A value that is not to be shown is not spelled out, and null is spelled as nothing. -/
def NodeProjection.displayText (projection : NodeProjection) : String :=
  if projection.writeOnly && projection.editBuffer.isNone then ""
  else projection.value.getD
    (((projection.currentData.filter (!·.isNull)).map Value.text).getD "")

/-! ## The handle -/

inductive HandleError where
  | disposed
  | operation (error : OperationError)
deriving DecidableEq, Repr

structure HandleInner where
  form : Form
  formVersion : Nat
  summaryProjection : SummaryProjection
  readOnly : Bool
  lifecycleVersion : Nat
  /-- One signal for every node of the form. -/
  nodeVersions : List (InstanceIdentity × Nat)
  disposed : Bool

/-- What a reader subscribes to. -/
inductive Signal where
  | form
  | summary
  | readOnly
  | lifecycle
  | node (identity : InstanceIdentity)
deriving DecidableEq, Repr

structure Called where
  handle : HandleInner
  written : List Signal
  result : Except HandleError Transition

def FormHandle.new (form : Form) : HandleInner where
  form := form
  formVersion := 0
  summaryProjection := projectSummary form
  readOnly := form.readOnly
  lifecycleVersion := 0
  nodeVersions := form.instanceIdentities.map (·, 0)
  disposed := false

namespace HandleInner

variable (handle : HandleInner)

def ensureLive : Except HandleError Unit :=
  if handle.disposed then .error .disposed else .ok ()

/-! ## Publishing -/

abbrev NodeVersions := List (InstanceIdentity × Nat)

/-- A signal for a listed node that has none yet. -/
def insertVersion (form : Form) (nodeVersions : NodeVersions) (identity : InstanceIdentity) :
    NodeVersions :=
  if (nodeVersions.lookup identity).isNone && (form.node identity).isSome then
    nodeVersions ++ [(identity, 0)]
  else nodeVersions

def bumpVersion (nodeVersions : NodeVersions) (identity : InstanceIdentity) : NodeVersions :=
  nodeVersions.map fun entry =>
    if entry.1 = identity then (entry.1, entry.2 + 1) else entry

/-- Signals of removed nodes leave the table. -/
def publishNodes (form : Form) (t : Transition) (nodeVersions : NodeVersions) : NodeVersions :=
  let nodeVersions := t.changed.foldl (insertVersion form) nodeVersions
  let nodeVersions := nodeVersions.filter fun entry => !t.removed.contains entry.1
  t.changed.foldl bumpVersion nodeVersions

/-- Nodes whose signal is written: listed ones that have a signal by then, and removed ones that
had one. -/
def writtenNodes (form : Form) (t : Transition) (nodeVersions : NodeVersions) :
    List InstanceIdentity :=
  let inserted := t.changed.foldl (insertVersion form) nodeVersions
  (t.changed ++ t.removed).filter fun identity => (inserted.lookup identity).isSome

/-- The signals a transition is published through, and the handle with them written. -/
def applyTransition (t : Transition) : HandleInner × List Signal :=
  if t.isEmpty then (handle, [])
  else
    let nextSummary := projectSummary handle.form
    let summaryChanged := handle.summaryProjection != nextSummary
    let readOnlyChanged := handle.readOnly != handle.form.readOnly
    ({ handle with
        formVersion := handle.formVersion + 1
        summaryProjection := if summaryChanged then nextSummary else handle.summaryProjection
        readOnly := if readOnlyChanged then handle.form.readOnly else handle.readOnly
        nodeVersions := publishNodes handle.form t handle.nodeVersions },
      Signal.form :: (if summaryChanged then [.summary] else []) ++
        (if readOnlyChanged then [.readOnly] else []) ++
        (writtenNodes handle.form t handle.nodeVersions).map .node)

def advanceLifecycle : HandleInner × List Signal :=
  ({ handle with lifecycleVersion := handle.lifecycleVersion + 1 }, [.lifecycle])

/-! ## Calls -/

/-- A call that needs the form and publishes the transition it reports. -/
def applyOperation (operation : Operation) : Called :=
  match handle.ensureLive with
  | .error error => ⟨handle, [], .error error⟩
  | .ok () =>
    match handle.form.step operation with
    | (form, .error error) => ⟨{ handle with form }, [], .error (.operation error)⟩
    | (form, .ok t) =>
      let (handle, written) := { handle with form }.applyTransition t
      ⟨handle, written, .ok t⟩

/-- A call that starts a new lifecycle once it has succeeded. -/
def applyRestart (operation : Operation) : Called :=
  let called := handle.applyOperation operation
  match called.result with
  | .error _ => called
  | .ok t =>
    let (handle, written) := called.handle.advanceLifecycle
    ⟨handle, called.written ++ written, .ok t⟩

def prepareSubmission := handle.applyOperation .prepareSubmission

def prepareAdvisorySubmission := handle.applyOperation .prepareAdvisorySubmission

def reset := handle.applyRestart .reset

def reinitialize (formData : Value) := handle.applyRestart (Operation.reinitialize formData)

def applyExternalFindings (batch : ExternalFindingBatch) :=
  handle.applyOperation (.applyExternalFindings batch)

def setFindingVisibility (policy : FindingVisibilityPolicy) :=
  handle.applyOperation (.setFindingVisibility policy)

def setReadOnly (readOnly : Bool) := handle.applyOperation (.setReadOnly readOnly)

/-- What the closure queues, and how it returns. -/
def tryTransact (operations : List HostOperation) (closure : Except Unit Unit) :=
  handle.applyOperation (.tryTransact operations closure)

def inputText (target : InstanceIdentity) (text : String) :=
  handle.applyOperation (.inputText target text)

def setValue (target : InstanceIdentity) (value : Value) :=
  handle.applyOperation (.setValue target value)

def replaceValue (target : InstanceIdentity) (value : Value) :=
  handle.applyOperation (.replaceValue target value)

def setNull (target : InstanceIdentity) := handle.applyOperation (.setNull target)

def removeValue (target : InstanceIdentity) := handle.applyOperation (.removeValue target)

def materialize (target : InstanceIdentity) := handle.applyOperation (.materialize target)

def toggleChoice (target : InstanceIdentity) (value : Value) :=
  handle.applyOperation (.toggleChoice target value)

def blur (target : InstanceIdentity) := handle.applyOperation (.blur target)

def append (array : InstanceIdentity) := handle.applyOperation (.appendItem array)

def insertBefore (array : InstanceIdentity) (before : ItemIdentity) :=
  handle.applyOperation (.insertItemBefore array before)

def remove (array : InstanceIdentity) (item : ItemIdentity) :=
  handle.applyOperation (.removeItem array item)

def moveUp (array : InstanceIdentity) (item : ItemIdentity) :=
  handle.applyOperation (.moveItem .up array item)

def moveDown (array : InstanceIdentity) (item : ItemIdentity) :=
  handle.applyOperation (.moveItem .down array item)

end HandleInner

/-! ## Readers -/

def FormReader.read (handle : HandleInner) : Except HandleError FormProjection := do
  handle.ensureLive
  return projectForm handle.form

def FormReader.formData (handle : HandleInner) : Except HandleError Value := do
  handle.ensureLive
  return handle.form.formData

def NodeReader.read (label : Value → String) (handle : HandleInner)
    (identity : InstanceIdentity) : Except HandleError (Option NodeProjection) := do
  handle.ensureLive
  return (handle.form.node identity).map (projectNode label)

/-! ## Runs -/

/-- Any call of a handle, or the end of the scope that created it. -/
inductive HandleCall where
  | operation (operation : WellFormedOperation)
  | dispose

def HandleInner.call (handle : HandleInner) : HandleCall → HandleInner × List Signal
  | .operation operation =>
    let called :=
      if operation.1.restarts then handle.applyRestart operation.1
      else handle.applyOperation operation.1
    (called.handle, called.written)
  | .dispose => ({ handle with disposed := true }, [])

def handleSystem : TransitionSystem HandleInner HandleCall where
  init handle := ∃ form, formSystem.init form ∧ handle = FormHandle.new form
  step handle call := (handle.call call).1

/-- The signals a run writes. -/
def HandleInner.written (handle : HandleInner) : List HandleCall → List Signal
  | [] => []
  | call :: calls => (handle.call call).2 ++ (handle.call call).1.written calls

end Dioxus

end Schemaform
