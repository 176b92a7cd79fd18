import Mathlib.Algebra.GroupWithZero.Nat
import Schemaform.Engine.State

/-!
# Engine.Edit

Edits of a bound value. Every operation takes the form and returns the form it leaves behind with
its result, so that a failure after a partial change would be seen.

* `prepareTextEdit`, `editText`, `setValue`: controls.
* `materializeStructure`, `replaceStructure`, `removeValue`: structures, with
  `reconcileAuthoritativeArrays` reseeding the arrays at or below the write.
* `blur`, `bindingIsTouched`: interaction state.
-/

namespace Schemaform.Engine.Form

/-! ## Text -/

structure TextEdit where
  location : ControlLocation
  nextParseBlocker : Option ParseBlocker
  replacement : Option Value
deriving DecidableEq, Repr

def parseText (parser : JsonParser) (kind : ControlKind) (input : String) (maximumDigits : Nat) :
    Option (Except ParseBlocker Value) :=
  match kind with
  | .string => some (.ok (.string input))
  | .number => some (parseNumber parser input)
  | .integer => some (parseIntegerWithLimit parser input maximumDigits)
  | .boolean | .choice | .constant | .null => none

/-- Whether the value a text parses to is the current one already. -/
def textUnchanged (kind : ControlKind) (current : Option Value) (value : Value) : Bool :=
  match kind, current with
  | .string, some current => current == value
  | .number, some current | .integer, some current => numbersEqual current value
  | _, _ => false

def prepareTextEdit (form : Form) (parser : JsonParser) (binding : Pointer) (input : String)
    (maximumDigits : Nat) : Except EditError TextEdit :=
  match form.controlLocation binding with
  | none => .error (.unknownControl binding)
  | some location =>
    match form.controlState location with
    | none => .error (.unknownControl binding)
    | some control =>
      match parseText parser control.definition.kind input maximumDigits with
      | none => .error (.operationNotAllowed binding)
      | some parsed =>
        let current := binding.resolve form.formData
        if current.any fun v => !v.isNull && !controlValueIsCompatible control.definition v then
          .error (.operationNotAllowed binding)
        else if current.any Value.isNull && !control.definition.acceptsNull then
          .error (.operationNotAllowed binding)
        else if current.isNone && !bindingParentIsObject binding form.formData then
          .error (.unresolvedControl binding)
        else
          match parsed with
          | .ok value =>
            let unchanged := textUnchanged control.definition.kind current value
            .ok ⟨location, none, if unchanged then none else some value⟩
          | .error blocker => .ok ⟨location, some blocker, none⟩

def editTextWithIntegerDigitLimit (form : Form) (parser : JsonParser) (binding : Pointer)
    (input : String) (maximumDigits : Nat) : Form × Except EditError Unit :=
  match form.prepareTextEdit parser binding input maximumDigits with
  | .error e => (form, .error e)
  | .ok edit =>
    match (match edit.replacement with
      | none => some form.formData
      | some value => setBoundValue binding value form.formData) with
    | none => (form, .error (.unresolvedControl binding))
    | some formData =>
      let editStateChanged := (form.controlState edit.location).any fun control =>
        control.editBuffer != some input || control.parseBlocker != edit.nextParseBlocker
      let form := { form with formData }.modifyControl (fun control =>
        { control with editBuffer := some input, parseBlocker := edit.nextParseBlocker })
        edit.location
      (form.advance edit.replacement.isSome editStateChanged, .ok ())

def prospectiveTextFormData (form : Form) (parser : JsonParser) (binding : Pointer)
    (input : String) (maximumDigits : Nat) : Except EditError (Option Value) := do
  let edit ← form.prepareTextEdit parser binding input maximumDigits
  match edit.replacement with
  | none => return none
  | some value =>
    match setBoundValue binding value form.formData with
    | some candidate => return some candidate
    | none => throw (.unresolvedControl binding)

def allControls (form : Form) : List ControlState :=
  form.controls ++ (form.arrays.flatMap (·.items)).flatMap (·.controls)

/-- The number of edit buffers and their bytes once `input` is typed at `binding`. -/
def prospectiveEditBufferMetrics (form : Form) (binding : Pointer) (input : String) :
    Except EditError (Nat × Nat) := do
  let some control := form.control binding | throw (.unknownControl binding)
  let buffers := form.allControls.filterMap (·.editBuffer)
  let active := buffers.length + (if control.editBuffer.isNone then 1 else 0)
  let bytes := (buffers.map String.utf8ByteSize).sum -
    (control.editBuffer.map String.utf8ByteSize).getD 0 + input.utf8ByteSize
  return (active, bytes)

/-! ## Values -/

/-- The compiled spelling of a choice, or the value itself. -/
def canonicalChoice (control : ControlDefinition) (value : Value) : Value :=
  (control.choices.find? (jsonValuesEqual · value)).getD value

def dataChanged (form : Form) : Form := form.advance true true

def setValue (form : Form) (binding : Pointer) (value : Value) : Form × Except EditError Unit :=
  match form.controlLocation binding with
  | none => (form, .error (.unknownControl binding))
  | some location =>
    match form.controlState location with
    | none => (form, .error (.unknownControl binding))
    | some control =>
      if !controlValueIsCompatible control.definition value then
        (form, .error (.operationNotAllowed binding))
      else
        let value := canonicalChoice control.definition value
        if (binding.resolve form.formData).any (jsonValuesEqual · value) then (form, .ok ())
        else
          match setBoundValue binding value form.formData with
          | none => (form, .error (.unresolvedControl binding))
          | some formData =>
            ((({ form with formData }).modifyControl ControlState.clearEditState
              location).dataChanged,
              .ok ())

/-! ## Structures -/

def reconcileArrays (binding : Pointer) (formData : Value) :
    List ArrayState → Nat → List ArrayState × Nat
  | [], nextIdentity => ([], nextIdentity)
  | array :: arrays, nextIdentity =>
    if array.definition.binding.startsWith binding then
      let (items, nextIdentity) := freshArrayItemsForData array.definition formData nextIdentity
      let (arrays, nextIdentity) := reconcileArrays binding formData arrays nextIdentity
      ({ array with items } :: arrays, nextIdentity)
    else
      let (arrays, nextIdentity) := reconcileArrays binding formData arrays nextIdentity
      (array :: arrays, nextIdentity)

/-- Fresh items for every array at or below the binding. -/
def reconcileAuthoritativeArrays (form : Form) (binding : Pointer) : Form :=
  let (arrays, nextItemIdentity) :=
    reconcileArrays binding form.formData form.arrays form.nextItemIdentity
  { form with arrays, nextItemIdentity }

def clearControlBelow (binding : Pointer) (at_ : Pointer) (control : ControlState) : ControlState :=
  if at_.startsWith binding then control.clearEditState else control

def clearItemBelow (binding : Pointer) (array : ArrayDefinition) (item : ArrayItemState)
    (index : Nat) : ArrayItemState :=
  { item with
    controls := item.controls.map fun control =>
      clearControlBelow binding
        (arrayItemPointer array.binding index ++ control.definition.binding) control }

/-- No edit state at or below the binding. -/
def clearEditStateBelow (form : Form) (binding : Pointer) : Form :=
  { form with
    controls := form.controls.map fun control =>
      clearControlBelow binding control.definition.binding control
    arrays := form.arrays.map fun array =>
      { array with items := array.items.mapIdx fun index item =>
          clearItemBelow binding array.definition item index } }

def materializeStructure (form : Form) (binding : Pointer) (seed : Value) :
    Form × Except EditError Unit :=
  if (binding.resolve form.formData).isSome || !(seed.isObject || seed.isArray) then
    (form, .error (.operationNotAllowed binding))
  else
    match setBoundValue binding seed form.formData with
    | none => (form, .error (.unresolvedControl binding))
    | some formData =>
      (({ form with formData }.reconcileAuthoritativeArrays binding).dataChanged, .ok ())

def isMultipleChoiceAt (form : Form) (binding : Pointer) : Bool :=
  form.arrays.any fun array =>
    array.definition.binding == binding && array.definition.isMultipleChoice

/-- Whether the present value may be replaced by a structure of the new value's shape. -/
def replaceable (multipleChoice : Bool) (value current : Value) : Bool :=
  value.isObject && !current.isObject || value.isArray && (!current.isArray || multipleChoice)

def replaceStructure (form : Form) (binding : Pointer) (value : Value) :
    Form × Except EditError Unit :=
  let multipleChoice := form.isMultipleChoiceAt binding
  if !(value.isObject || value.isArray) ||
      !(binding.resolve form.formData).any (replaceable multipleChoice value) then
    (form, .error (.operationNotAllowed binding))
  else
    match setBoundValue binding value form.formData with
    | none => (form, .error (.unresolvedControl binding))
    | some formData =>
      ((({ form with formData }.reconcileAuthoritativeArrays binding).clearEditStateBelow
        binding).dataChanged, .ok ())

def removeValue (form : Form) (binding : Pointer) : Form × Except EditError Unit :=
  match takeBoundValue binding form.formData with
  | none => (form, .error (.unresolvedControl binding))
  | some formData =>
    (({ form with formData }.dataChanged.reconcileAuthoritativeArrays binding).clearEditStateBelow
      binding, .ok ())

/-! ## Touching -/

def blurArray (form : Form) (binding : Pointer) : Form × Except EditError Unit :=
  match form.arrayIndex binding with
  | none => (form, .error (.unknownControl binding))
  | some index =>
    match (form.arrays[index]?).filter fun array => array.definition.isMultipleChoice with
    | none => (form, .error (.unknownControl binding))
    | some array =>
      if array.touched then (form, .ok ())
      else
        ({ form with
            arrays := form.arrays.modify index fun array =>
              { array with touched := true } }.advance false true, .ok ())

def blur (form : Form) (binding : Pointer) : Form × Except EditError Unit :=
  match form.controlLocation binding with
  | none => form.blurArray binding
  | some location =>
    let stateChanged := (form.controlState location).any fun control =>
      control.canFinalize || !control.touched
    let form := form.modifyControl (fun control =>
      { control.finalizeEditBuffer with touched := true }) location
    (form.advance false stateChanged, .ok ())

/-- A control is touched by its own blur, a multiple choice and its items by the array's. -/
def bindingIsTouched (form : Form) (binding : Pointer) : Bool :=
  if (form.control binding).any (·.touched) then true
  else
    match form.array binding with
    | some array => array.touched
    | none =>
      match binding.splitBack with
      | none => false
      | some (parent, index) =>
        (Token.toIndex index).isSome &&
        ((form.array parent).filter (·.definition.isMultipleChoice)).any (·.touched)

end Schemaform.Engine.Form
