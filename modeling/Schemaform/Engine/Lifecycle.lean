import Schemaform.Engine.Array

/-!
# Engine.Lifecycle

Operations on the whole form.

* `reset`, `reinitialize`: back to the baseline, on to a new one.
* `applyHostTransaction`: commit of a host candidate with its array topologies and item writes.
* `prepareSubmission`: finalized buffers and the parse blockers.
-/

namespace Schemaform.Engine

/-- An entry of a host topology. -/
inductive HostArrayItem where
  | existing (identity : Nat)
  | fresh
deriving DecidableEq, Repr

inductive HostArrayChange where
  | preserve (topology : List HostArrayItem)
  | replace
deriving DecidableEq, Repr

structure HostItemWrite where
  array : Nat
  identity : Nat
  binding : Pointer
deriving DecidableEq, Repr

inductive SubmissionBlocker where
  | parse (binding : Pointer) (reason : ParseBlocker)
  | external (source : String) (instancePointer : Pointer) (code : String)
deriving DecidableEq, Repr

def ArrayItemState.map (edit : ControlState → ControlState) (item : ArrayItemState) :
    ArrayItemState :=
  { item with controls := item.controls.map edit }

namespace Form

/-- One edit of every control state. -/
def mapControls (form : Form) (edit : ControlState → ControlState) : Form :=
  { form with
    controls := form.controls.map edit
    arrays := form.arrays.map fun array =>
      { array with items := array.items.map (ArrayItemState.map edit) } }

/-! ## Reset and reinitialization -/

def topologyChanged (form : Form) : Bool :=
  (form.arrays.zip form.baselineArrayIdentities).any fun (array, baseline) =>
    array.identities != baseline

def untouchArrays (form : Form) : Form :=
  { form with arrays := form.arrays.map fun array => { array with touched := false } }

/-- Items with the baseline's identities, for every array that has a baseline list. -/
def restoreArrays : List ArrayState → List (List Nat) → List ArrayState
  | array :: arrays, identities :: baseline =>
    { array with items := arrayItemsWithIdentities array.definition identities } ::
      restoreArrays arrays baseline
  | arrays, _ => arrays

def reset (form : Form) : Form :=
  let dataChanged := !jsonValuesEqual form.formData form.baseline
  let topologyChanged := form.topologyChanged
  let stateChanged := dataChanged || topologyChanged || form.submissionAttempted ||
    form.allControls.any ControlState.hasLifecycleState || form.arrays.any (·.touched)
  let form := (form.mapControls ControlState.clearLifecycleState).untouchArrays
  { form with
    formData := if dataChanged then form.baseline else form.formData
    arrays :=
      if topologyChanged then restoreArrays form.arrays form.baselineArrayIdentities
      else form.arrays
    submissionAttempted := false }.advance dataChanged stateChanged

def reinitialize (form : Form) (formData : Value) : Form × Except CreateFormError Unit :=
  if !formData.isObject then (form, .error .formDataMustBeObject)
  else
    let dataChanged := !jsonValuesEqual form.formData formData
    let (arrays, nextItemIdentity) :=
      freshArrays formData (form.arrays.map (·.definition)) form.nextItemIdentity
    ({ form with
        controls := form.controls.map ControlState.clearLifecycleState
        arrays
        nextItemIdentity
        baselineArrayIdentities := arrays.map (·.identities)
        formData := if dataChanged then formData else form.formData
        baseline := formData
        externalFindingBatches := []
        submissionAttempted := false
        dataRevision := form.dataRevision + 1
        stateRevision := form.stateRevision + 1 }, .ok ())

/-! ## Host transactions -/

/-- Existing items of a topology: distinct, and each an item of the array. -/
def validExisting (array : ArrayState) : List HostArrayItem → List Nat → Bool
  | [], _ => true
  | .fresh :: topology, seen => validExisting array topology seen
  | .existing identity :: topology, seen =>
    !seen.contains identity && array.identities.contains identity &&
    validExisting array topology (identity :: seen)

def validTopology (array : ArrayState) (formData : Value) (topology : List HostArrayItem) : Bool :=
  topology.length == (arrayValues array.definition.binding formData).length &&
  validExisting array topology []

def validChange (formData : Value) : ArrayState × HostArrayChange → Bool
  | (array, .preserve topology) => validTopology array formData topology
  | (_, .replace) => true

def sameTopology (array : ArrayState) (topology : List HostArrayItem) : Bool :=
  array.identities.map .existing == topology

def changesTopology : ArrayState × HostArrayChange → Bool
  | (_, .replace) => true
  | (array, .preserve topology) => !sameTopology array topology

def intersects (write binding : Pointer) : Bool :=
  write.startsWith binding || binding.startsWith write

def clearWritten (writes : List Pointer) (control : ControlState) : ControlState :=
  if writes.any (intersects · control.definition.binding) then control.clearEditState else control

def clearsWritten (writes : List Pointer) (control : ControlState) : Bool :=
  writes.any (intersects · control.definition.binding) && control.hasEditState

/-- Clear what one item write reaches; `none` when its array or item is not there. -/
def clearItemWrite (form : Form) (write : HostItemWrite) : Option (Form × Bool) := do
  let array ← form.arrays[write.array]?
  let index ← array.items.findIdx? (·.identity == write.identity)
  let item ← array.items[index]?
  let changed := item.controls.any (clearsWritten [write.binding])
  return (form.setItems write.array
    (array.items.modify index (ArrayItemState.map (clearWritten [write.binding]))), changed)

/-- All item writes in order, up to the first that finds no item. -/
def clearItemWrites : List HostItemWrite → Form → Form × Except CreateFormError Bool
  | [], form => (form, .ok false)
  | write :: writes, form =>
    match form.clearItemWrite write with
    | none => (form, .error .formDataMustBeObject)
    | some (form, changed) =>
      match clearItemWrites writes form with
      | (form, .ok more) => (form, .ok (changed || more))
      | (form, .error e) => (form, .error e)

/-- Items of a topology, taken from the previous ones or fresh. -/
def takeItems (definition : ArrayDefinition) :
    List HostArrayItem → List ArrayItemState → Nat → List ArrayItemState × Nat
  | [], _, nextIdentity => ([], nextIdentity)
  | .fresh :: topology, previous, nextIdentity =>
    let (items, next) := takeItems definition topology previous (nextIdentity + 1)
    (ArrayItemState.new nextIdentity definition :: items, next)
  | .existing identity :: topology, previous, nextIdentity =>
    let index := previous.findIdx (·.identity == identity)
    let (items, next) := takeItems definition topology (previous.eraseIdx index) nextIdentity
    ((previous[index]?).toList ++ items, next)

def applyChange (formData : Value) (array : ArrayState) (change : HostArrayChange)
    (nextIdentity : Nat) : ArrayState × Nat :=
  match change with
  | .replace =>
    let (items, next) := freshArrayItemsForData array.definition formData nextIdentity
    ({ array with items }, next)
  | .preserve topology =>
    if sameTopology array topology then (array, nextIdentity)
    else
      let (items, next) := takeItems array.definition topology array.items nextIdentity
      ({ array with items }, next)

def applyChanges (formData : Value) :
    List ArrayState → List HostArrayChange → Nat → List ArrayState × Nat
  | array :: arrays, change :: changes, nextIdentity =>
    let (array, next) := applyChange formData array change nextIdentity
    let (arrays, next) := applyChanges formData arrays changes next
    (array :: arrays, next)
  | arrays, _, nextIdentity => (arrays, nextIdentity)

def applyHostTransaction (form : Form) (formData : Value) (writes : List Pointer)
    (arrayChanges : List HostArrayChange) (itemWrites : List HostItemWrite) :
    Form × Except CreateFormError Unit :=
  if !formData.isObject || arrayChanges.length != form.arrays.length then
    (form, .error .formDataMustBeObject)
  else
    let dataChanged := !jsonValuesEqual form.formData formData
    let changes := form.arrays.zip arrayChanges
    if !changes.all (validChange formData) then (form, .error .formDataMustBeObject)
    else
      let topologyChanged := changes.any changesTopology
      let writesClear := form.controls.any (clearsWritten writes)
      let form := { form with controls := form.controls.map (clearWritten writes) }
      match clearItemWrites itemWrites form with
      | (form, .error e) => (form, .error e)
      | (form, .ok itemWritesClear) =>
        let formData := if dataChanged then formData else form.formData
        let (arrays, nextItemIdentity) :=
          applyChanges formData form.arrays arrayChanges form.nextItemIdentity
        ({ form with formData, arrays, nextItemIdentity }.advance dataChanged
          (topologyChanged || writesClear || itemWritesClear), .ok ())

/-! ## Submission -/

/-- Every control state with the pointer it is bound to now. -/
def boundControls (form : Form) : List (Pointer × ControlState) :=
  form.controls.map (fun control => (control.definition.binding, control)) ++
  form.arrays.flatMap fun array => array.items.zipIdx.flatMap fun (item, index) =>
    item.controls.map fun control =>
      (arrayItemPointer array.definition.binding index ++ control.definition.binding, control)

def parseBlockers (form : Form) : List (Pointer × ParseBlocker) :=
  form.boundControls.filterMap fun (binding, control) => control.parseBlocker.map (binding, ·)

def engineBlockers (form : Form) : List SubmissionBlocker :=
  form.parseBlockers.map (fun (binding, reason) => .parse binding reason) ++
  form.externalFindingBatches.flatMap fun batch =>
    (batch.findings.filter (·.blocking)).map fun finding =>
      .external batch.source finding.instancePointer finding.code

structure SubmissionSnapshot where
  formData : Value
  dataRevision : Nat
deriving DecidableEq, Repr

def prepareSubmission (form : Form) :
    Form × Except (List SubmissionBlocker) SubmissionSnapshot :=
  let blockers := form.engineBlockers
  let stateChanged := !form.submissionAttempted || form.allControls.any ControlState.canFinalize
  let form := { form with submissionAttempted := true }.mapControls ControlState.finalizeEditBuffer
  let form := form.advance false stateChanged
  (form, if blockers.isEmpty then .ok ⟨form.formData, form.dataRevision⟩ else .error blockers)

end Form

end Schemaform.Engine
