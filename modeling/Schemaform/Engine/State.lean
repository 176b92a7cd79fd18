import Schemaform.Engine.Definition
import Schemaform.Engine.Parse
import Schemaform.Finding

/-!
# Engine.State

The interaction state of one form.

* `ControlState`, `ArrayState`, `Form`.
* `FormDefinition.createForm`: the initial state.
* `Form.controlLocation`, `controlState`, `modifyControl`: a control by its current binding.
* `arrayValues`: the items an array binding holds in a value, none when it holds no array.
-/

namespace Schemaform.Engine

/-- Text of a control: what was typed, and why it has no value yet. -/
structure ControlState where
  definition : ControlDefinition
  editBuffer : Option String
  parseBlocker : Option ParseBlocker
  touched : Bool
deriving DecidableEq, Repr

namespace ControlState

def new (definition : ControlDefinition) : ControlState := ⟨definition, none, none, false⟩

def clearEditState (control : ControlState) : ControlState :=
  { control with editBuffer := none, parseBlocker := none }

def hasEditState (control : ControlState) : Bool :=
  control.editBuffer.isSome || control.parseBlocker.isSome

def clearLifecycleState (control : ControlState) : ControlState :=
  { control.clearEditState with touched := false }

def hasLifecycleState (control : ControlState) : Bool := control.hasEditState || control.touched

/-- A buffer without a blocker is dropped: its value is in the data already. -/
def finalizeEditBuffer (control : ControlState) : ControlState :=
  if control.parseBlocker.isNone then { control with editBuffer := none } else control

def canFinalize (control : ControlState) : Bool :=
  control.parseBlocker.isNone && control.editBuffer.isSome

end ControlState

structure ArrayItemState where
  identity : Nat
  controls : List ControlState
deriving DecidableEq, Repr

def ArrayItemState.new (identity : Nat) (definition : ArrayDefinition) : ArrayItemState :=
  ⟨identity, definition.itemTemplate.controls.map ControlState.new⟩

structure ArrayState where
  definition : ArrayDefinition
  items : List ArrayItemState
  touched : Bool
deriving DecidableEq, Repr

def ArrayState.identities (array : ArrayState) : List Nat := array.items.map (·.identity)

structure ExternalFinding where
  instancePointer : Pointer
  code : String
  blocking : Bool
deriving DecidableEq, Repr

structure ExternalFindingBatch where
  source : String
  dataRevision : Nat
  findings : List ExternalFinding
deriving DecidableEq, Repr

structure Form where
  controls : List ControlState
  arrays : List ArrayState
  nextItemIdentity : Nat
  baselineArrayIdentities : List (List Nat)
  baseline : Value
  formData : Value
  externalFindingBatches : List ExternalFindingBatch
  submissionAttempted : Bool
  dataRevision : Nat
  stateRevision : Nat
deriving DecidableEq, Repr

inductive EditError where
  | unknownControl (binding : Pointer)
  | unresolvedControl (binding : Pointer)
  | operationNotAllowed (binding : Pointer)
deriving DecidableEq, Repr

inductive CreateFormError where
  | formDataMustBeObject
deriving DecidableEq, Repr

/-! ## Array items -/

def arrayValues (binding : Pointer) (formData : Value) : List Value :=
  ((binding.resolve formData).bind Value.asArray).getD []

/-- `count` items with consecutive new identities, and the next one. -/
def freshArrayItems (definition : ArrayDefinition) (count nextIdentity : Nat) :
    List ArrayItemState × Nat :=
  ((List.range' nextIdentity count).map fun identity => ArrayItemState.new identity definition,
    nextIdentity + count)

def freshArrayItemsForData (definition : ArrayDefinition) (formData : Value)
    (nextIdentity : Nat) : List ArrayItemState × Nat :=
  freshArrayItems definition (arrayValues definition.binding formData).length nextIdentity

def arrayItemsWithIdentities (definition : ArrayDefinition) (identities : List Nat) :
    List ArrayItemState :=
  identities.map fun identity => ArrayItemState.new identity definition

/-- Every array of the definition with fresh items for the data. -/
def freshArrays (formData : Value) : List ArrayDefinition → Nat → List ArrayState × Nat
  | [], nextIdentity => ([], nextIdentity)
  | definition :: definitions, nextIdentity =>
    let (items, nextIdentity) := freshArrayItemsForData definition formData nextIdentity
    let (arrays, nextIdentity) := freshArrays formData definitions nextIdentity
    (⟨definition, items, false⟩ :: arrays, nextIdentity)

def FormDefinition.createForm (definition : FormDefinition) (formData : Value) :
    Except CreateFormError Form :=
  if !formData.isObject then .error .formDataMustBeObject
  else
    let (arrays, nextItemIdentity) := freshArrays formData definition.arrays 1
    .ok {
      controls := definition.controls.map ControlState.new
      arrays
      nextItemIdentity
      baselineArrayIdentities := arrays.map (·.identities)
      baseline := formData
      formData
      externalFindingBatches := []
      submissionAttempted := false
      dataRevision := 0
      stateRevision := 0 }

/-! ## Seeding defaults -/

/-- Insert the control's single declared default when it is absent below a present object. -/
def seedControlDefault (annotations : DataSchemaAnnotations) (binding : Pointer)
    (formData : Value) : Value :=
  match annotations.defaults with
  | [default] =>
    if !bindingParentIsObject binding formData || (binding.resolve formData).isSome then formData
    else (setBoundValue binding default formData).getD formData
  | _ => formData

def FormDefinition.seedDefaults (definition : FormDefinition) (formData : Value) : Value :=
  let formData := definition.controls.foldl (fun formData control =>
    seedControlDefault control.annotations control.binding formData) formData
  definition.arrays.foldl (fun formData array =>
    let formData :=
      if array.isMultipleChoice then seedControlDefault array.annotations array.binding formData
      else formData
    (List.range (arrayValues array.binding formData).length).foldl (fun formData index =>
      array.itemTemplate.controls.foldl (fun formData control =>
        seedControlDefault control.annotations
          (arrayItemPointer array.binding index ++ control.binding) formData) formData) formData)
    formData

/-! ## Controls by binding -/

inductive ControlLocation where
  | static (index : Nat)
  | arrayItem (array item control : Nat)
deriving DecidableEq, Repr

namespace Form

def findItemControl (binding : Pointer) (array : ArrayState) : Option (Nat × Nat) :=
  array.items.zipIdx.findSome? fun (item, index) =>
    (item.controls.findIdx? fun control =>
      arrayItemPointer array.definition.binding index ++ control.definition.binding == binding).map
      fun control => (index, control)

def controlLocation (form : Form) (binding : Pointer) : Option ControlLocation :=
  match form.controls.findIdx? (·.definition.binding == binding) with
  | some index => some (.static index)
  | none => form.arrays.zipIdx.findSome? fun (array, arrayIndex) =>
    (findItemControl binding array).map fun (item, control) => .arrayItem arrayIndex item control

def controlState (form : Form) : ControlLocation → Option ControlState
  | .static index => form.controls[index]?
  | .arrayItem array item control => do
    let array ← form.arrays[array]?
    let item ← array.items[item]?
    item.controls[control]?

def modifyControl (form : Form) (edit : ControlState → ControlState) : ControlLocation → Form
  | .static index => { form with controls := form.controls.modify index edit }
  | .arrayItem array item control =>
    { form with
      arrays := form.arrays.modify array fun array =>
        { array with
          items := array.items.modify item fun item =>
            { item with controls := item.controls.modify control edit } } }

section modifyControl

variable (form : Form) (edit : ControlState → ControlState) (location : ControlLocation)

@[simp] theorem modifyControl_nextItemIdentity :
    (form.modifyControl edit location).nextItemIdentity = form.nextItemIdentity := by
  cases location <;> rfl

@[simp] theorem modifyControl_baselineArrayIdentities :
    (form.modifyControl edit location).baselineArrayIdentities = form.baselineArrayIdentities := by
  cases location <;> rfl

@[simp] theorem modifyControl_baseline :
    (form.modifyControl edit location).baseline = form.baseline := by
  cases location <;> rfl

@[simp] theorem modifyControl_formData :
    (form.modifyControl edit location).formData = form.formData := by
  cases location <;> rfl

@[simp] theorem modifyControl_externalFindingBatches :
    (form.modifyControl edit location).externalFindingBatches = form.externalFindingBatches := by
  cases location <;> rfl

@[simp] theorem modifyControl_submissionAttempted :
    (form.modifyControl edit location).submissionAttempted = form.submissionAttempted := by
  cases location <;> rfl

@[simp] theorem modifyControl_dataRevision :
    (form.modifyControl edit location).dataRevision = form.dataRevision := by
  cases location <;> rfl

@[simp] theorem modifyControl_stateRevision :
    (form.modifyControl edit location).stateRevision = form.stateRevision := by
  cases location <;> rfl

end modifyControl

def control (form : Form) (binding : Pointer) : Option ControlState :=
  (form.controlLocation binding).bind form.controlState

def arrayIndex (form : Form) (binding : Pointer) : Option Nat :=
  form.arrays.findIdx? (·.definition.binding == binding)

def array (form : Form) (binding : Pointer) : Option ArrayState :=
  form.arrays.find? (·.definition.binding == binding)

def arrayItemIdentities (form : Form) (binding : Pointer) : Option (List Nat) :=
  (form.array binding).map (·.identities)

def arrayItemBinding (form : Form) (binding : Pointer) (identity : Nat) : Option Pointer := do
  let array ← form.array binding
  let index ← array.items.findIdx? (·.identity == identity)
  return arrayItemPointer array.definition.binding index

def controlAcceptsValue (form : Form) (binding : Pointer) (value : Value) : Option Bool :=
  (form.control binding).map fun control => controlValueIsCompatible control.definition value

def boundValueIsDirty (form : Form) (binding : Pointer) : Bool :=
  match binding.resolve form.formData, binding.resolve form.baseline with
  | some current, some baseline => !jsonValuesEqual current baseline
  | none, none => false
  | _, _ => true

/-- The end of an operation: a data change clears the findings and counts in both revisions, any
other change counts in the state revision. -/
def advance (form : Form) (dataChanged stateChanged : Bool) : Form :=
  { form with
    externalFindingBatches := if dataChanged then [] else form.externalFindingBatches
    dataRevision := form.dataRevision + (if dataChanged then 1 else 0)
    stateRevision := form.stateRevision + (if dataChanged || stateChanged then 1 else 0) }

@[simp] theorem advance_controls (form : Form) (d s : Bool) :
    (form.advance d s).controls = form.controls := rfl
@[simp] theorem advance_arrays (form : Form) (d s : Bool) :
    (form.advance d s).arrays = form.arrays := rfl
@[simp] theorem advance_nextItemIdentity (form : Form) (d s : Bool) :
    (form.advance d s).nextItemIdentity = form.nextItemIdentity := rfl
@[simp] theorem advance_baselineArrayIdentities (form : Form) (d s : Bool) :
    (form.advance d s).baselineArrayIdentities = form.baselineArrayIdentities := rfl
@[simp] theorem advance_baseline (form : Form) (d s : Bool) :
    (form.advance d s).baseline = form.baseline := rfl
@[simp] theorem advance_formData (form : Form) (d s : Bool) :
    (form.advance d s).formData = form.formData := rfl

theorem advance_false (form : Form) : form.advance false false = form := rfl

def markStateChanged (form : Form) : Form := form.advance false true

end Form

end Schemaform.Engine
