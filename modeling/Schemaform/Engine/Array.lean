import Schemaform.Engine.Edit
import Schemaform.Lib.ListEdit

/-!
# Engine.Array

Operations on the items of a homogeneous array. The item states and the array's values are two
lists that every operation edits alike.

* `arrayCanAppend`, `arrayCanRemove`, `arrayCanMove`, `arrayCanToggleChoice`: the gates.
* `appendArrayItem`, `insertArrayItemBefore`, `removeArrayItem`, `moveArrayItem`,
  `toggleArrayChoice`.
-/

namespace Schemaform.Engine

open ListEdit (swap eraseIndices)

structure RemovedArrayItem where
  identity : Nat
  shifted : List Nat
deriving DecidableEq, Repr

structure InsertedArrayItem where
  identity : Nat
  shifted : List Nat
deriving DecidableEq, Repr

structure MovedArrayItem where
  identity : Nat
  displaced : Nat
  source : Nat
  destination : Nat
  dataChanged : Bool
deriving DecidableEq, Repr

inductive ToggledArrayChoice where
  | included (item : InsertedArrayItem)
  | excluded (removed shifted : List Nat)
deriving DecidableEq, Repr

inductive ArrayMove where
  | up
  | down
deriving DecidableEq, Repr

/-- `as_array_mut` and an edit of the items. -/
def editItems (edit : List Value → List Value) : Value → Option Value
  | .array values => some (.array (edit values))
  | _ => none

namespace Form

/-- The values of the array bound here, when it is compiled and holds an array. -/
def presentArray (form : Form) (binding : Pointer) : Option (ArrayState × List Value) := do
  let array ← form.array binding
  let values ← (array.definition.binding.resolve form.formData).bind Value.asArray
  return (array, values)

def arrayCanAppend (form : Form) (binding : Pointer) : Bool :=
  (form.presentArray binding).any fun (array, values) =>
    array.definition.maxItems.all fun maximum => decide (values.length < maximum)

def arrayCanRemove (form : Form) (binding : Pointer) : Bool :=
  (form.presentArray binding).any fun (array, values) =>
    !values.isEmpty &&
    array.definition.minItems.all fun minimum => decide (values.length > minimum)

def arrayCanMove (form : Form) (binding : Pointer) : Bool :=
  (form.presentArray binding).any fun (_, values) => decide (values.length > 1)

def arrayCanToggleChoice (form : Form) (binding : Pointer) : Bool :=
  ((form.array binding).filter (·.definition.isMultipleChoice)).any fun array =>
    match array.definition.binding.resolve form.formData with
    | some value => value.isArray
    | none => bindingParentIsObject array.definition.binding form.formData

def setItems (form : Form) (index : Nat) (items : List ArrayItemState) : Form :=
  { form with arrays := form.arrays.modify index fun array => { array with items } }

/-- Put a seeded value and a fresh item in at one position. -/
def insertItemAt (form : Form) (arrayIndex : Nat) (array : ArrayState) (position : Nat)
    (seed : Value) : Option Form := do
  let formData ← array.definition.binding.modify
    (editItems fun values => values.insertIdx position seed) form.formData
  let item := ArrayItemState.new form.nextItemIdentity array.definition
  return ({ form with formData, nextItemIdentity := form.nextItemIdentity + 1 }.setItems arrayIndex
    (array.items.insertIdx position item)).dataChanged

def identitiesFrom (items : List ArrayItemState) (position : Nat) : List Nat :=
  (items.drop position).map (·.identity)

def appendArrayItem (form : Form) (binding : Pointer) : Form × Except EditError Nat :=
  if !form.arrayCanAppend binding then (form, .error (.operationNotAllowed binding))
  else
    match form.arrayIndex binding, form.array binding with
    | some arrayIndex, some array =>
      let seed := array.definition.itemTemplate.creationSeed
      match array.definition.binding.modify (editItems fun values => values ++ [seed])
          form.formData with
      | none => (form, .error (.unresolvedControl binding))
      | some formData =>
        let identity := form.nextItemIdentity
        let item := ArrayItemState.new identity array.definition
        (({ form with formData, nextItemIdentity := identity + 1 }.setItems arrayIndex
          (array.items ++ [item])).dataChanged, .ok identity)
    | _, _ => (form, .error (.unknownControl binding))

def insertArrayItemBefore (form : Form) (binding : Pointer) (before : Nat) :
    Form × Except EditError InsertedArrayItem :=
  if !form.arrayCanAppend binding then (form, .error (.operationNotAllowed binding))
  else
    match form.arrayIndex binding, form.array binding with
    | some arrayIndex, some array =>
      match array.items.findIdx? (·.identity == before) with
      | none => (form, .error (.unknownControl binding))
      | some itemIndex =>
        match form.insertItemAt arrayIndex array itemIndex
            array.definition.itemTemplate.creationSeed with
        | none => (form, .error (.unresolvedControl binding))
        | some form' =>
          (form', .ok ⟨form.nextItemIdentity, identitiesFrom array.items itemIndex⟩)
    | _, _ => (form, .error (.unknownControl binding))

def removeArrayItem (form : Form) (binding : Pointer) (identity : Nat) :
    Form × Except EditError RemovedArrayItem :=
  if !form.arrayCanRemove binding then (form, .error (.operationNotAllowed binding))
  else
    match form.arrayIndex binding, form.array binding with
    | some arrayIndex, some array =>
      match array.items.findIdx? (·.identity == identity) with
      | none => (form, .error (.unknownControl binding))
      | some itemIndex =>
        match array.definition.binding.modify (editItems fun values => values.eraseIdx itemIndex)
            form.formData with
        | none => (form, .error (.unresolvedControl binding))
        | some formData =>
          (({ form with formData }.setItems arrayIndex (array.items.eraseIdx itemIndex)).dataChanged,
            .ok ⟨identity, identitiesFrom array.items (itemIndex + 1)⟩)
    | _, _ => (form, .error (.unknownControl binding))

def moveDestination (direction : ArrayMove) (index len : Nat) : Option Nat :=
  match direction with
  | .up => if index = 0 then none else some (index - 1)
  | .down => if index + 1 < len then some (index + 1) else none

def moveArrayItem (direction : ArrayMove) (form : Form) (binding : Pointer) (identity : Nat) :
    Form × Except EditError MovedArrayItem :=
  match form.arrayIndex binding, form.array binding with
  | some arrayIndex, some array =>
    match array.items.findIdx? (·.identity == identity) with
    | none => (form, .error (.unknownControl binding))
    | some itemIndex =>
      match moveDestination direction itemIndex array.items.length with
      | none => (form, .error (.operationNotAllowed binding))
      | some destination =>
        match (array.definition.binding.resolve form.formData).bind Value.asArray,
            array.definition.binding.modify
              (editItems fun values => swap values itemIndex destination) form.formData with
        | some values, some formData =>
          let dataChanged := !jsonValuesEqual (values.getD itemIndex .null)
            (values.getD destination .null)
          let displaced := ((array.items[destination]?).map (·.identity)).getD 0
          let form := { form with formData }.setItems arrayIndex
            (swap array.items itemIndex destination)
          (form.advance dataChanged true,
            .ok ⟨identity, displaced, itemIndex, destination, dataChanged⟩)
        | _, _ => (form, .error (.unresolvedControl binding))
  | _, _ => (form, .error (.unknownControl binding))

def optionPosition (choices : List Value) (member : Value) : Option Nat :=
  choices.findIdx? (jsonValuesEqual · member)

/-- Before the first item whose option comes later, else at the end. -/
def choiceInsertPosition (choices members : List Value) (optionIndex : Nat) : Nat :=
  (members.findIdx? fun member =>
    (optionPosition choices member).any fun later => decide (later > optionIndex)).getD members.length

/-- The items whose value is the toggled one, by position. -/
def carrying (members : List Value) (value : Value) : List Nat :=
  (members.zipIdx.filter fun (member, _) => jsonValuesEqual member value).map Prod.snd

def toggleArrayChoice (form : Form) (binding : Pointer) (value : Value) :
    Form × Except EditError ToggledArrayChoice :=
  if !form.arrayCanToggleChoice binding then (form, .error (.operationNotAllowed binding))
  else
    match form.arrayIndex binding, form.array binding with
    | some arrayIndex, some array =>
      let choices := array.definition.choices
      match choices.findIdx? (jsonValuesEqual · value) with
      | none => (form, .error (.operationNotAllowed binding))
      | some optionIndex =>
        let value := choices.getD optionIndex value
        let arrayBinding := array.definition.binding
        let current := arrayBinding.resolve form.formData
        let members := (current.bind Value.asArray).getD []
        let carrying := carrying members value
        -- an absent array is created empty and receives its member like a present one
        match (if current.isNone then setBoundValue arrayBinding (.array []) form.formData
            else some form.formData) with
        | none => (form, .error (.unresolvedControl binding))
        | some formData =>
          let form := { form with formData }
          if carrying.isEmpty then
            let position := choiceInsertPosition choices members optionIndex
            match form.insertItemAt arrayIndex array position value with
            | none => (form, .error (.unresolvedControl binding))
            | some form' =>
              (form', .ok (.included
                ⟨form.nextItemIdentity, identitiesFrom array.items position⟩))
          else
            match arrayBinding.modify (editItems fun values => eraseIndices values carrying)
                form.formData with
            | none => (form, .error (.unresolvedControl binding))
            | some formData =>
              let items := eraseIndices array.items carrying
              let removed := carrying.filterMap fun index => (array.items[index]?).map (·.identity)
              (({ form with formData }.setItems arrayIndex items).dataChanged,
                .ok (.excluded removed (identitiesFrom items (carrying.headD 0))))
    | _, _ => (form, .error (.unknownControl binding))

end Form

end Schemaform.Engine
