import Schemaform.Json.Equal

/-!
# Engine.Definition

The compiled projection a form runs on: controls, objects, homogeneous arrays with their item
templates, and unsupported regions.

* `ControlDefinition`, `ObjectDefinition`, `ArrayDefinition`, `FormDefinition`.
* `ArrayDefinition.isMultipleChoice`, `choices`.
* `controlValueIsCompatible`: whether a control can hold a value.
* `FormDefinition.WellFormed`: what the projection guarantees of its bindings and seeds.
-/

namespace Schemaform

structure DataSchemaAnnotations where
  readOnly : Bool := false
  writeOnly : Bool := false
  defaults : List Value := []
deriving DecidableEq, Repr

namespace Engine

inductive ControlKind where
  | string
  | number
  | integer
  | boolean
  | choice
  | constant
  | null
deriving DecidableEq, Repr

structure ControlDefinition where
  binding : Pointer
  parentBinding : Option Pointer
  kind : ControlKind
  choices : List Value
  acceptsNull : Bool
  annotations : DataSchemaAnnotations
  creationSeed : Option Value
  required : Bool
deriving DecidableEq, Repr

structure ObjectDefinition where
  binding : Pointer
  parentBinding : Option Pointer
  annotations : DataSchemaAnnotations
  required : Bool
  creationSeed : Value
deriving DecidableEq, Repr

structure ArrayItemTemplate where
  controls : List ControlDefinition
  objects : List ObjectDefinition
  creationSeed : Value
deriving DecidableEq, Repr

structure ArrayDefinition where
  binding : Pointer
  parentBinding : Option Pointer
  annotations : DataSchemaAnnotations
  required : Bool
  creationSeed : Value
  minItems : Option Nat
  maxItems : Option Nat
  uniqueItems : Bool
  itemTemplate : ArrayItemTemplate
deriving DecidableEq, Repr

structure UnsupportedRegion where
  binding : Pointer
  parentBinding : Option Pointer
  annotations : DataSchemaAnnotations
  required : Bool
deriving DecidableEq, Repr

structure FormDefinition where
  controls : List ControlDefinition
  objects : List ObjectDefinition
  arrays : List ArrayDefinition
  unsupportedRegions : List UnsupportedRegion
  rootAnnotations : DataSchemaAnnotations
deriving DecidableEq, Repr

namespace ArrayDefinition

def isMultipleChoice (array : ArrayDefinition) : Bool :=
  array.uniqueItems && array.itemTemplate.objects.isEmpty &&
  match array.itemTemplate.controls with
  | [item] => item.kind == .choice
  | _ => false

def choices (array : ArrayDefinition) : List Value :=
  if !array.isMultipleChoice then []
  else (array.itemTemplate.controls.head?.map (·.choices)).getD []

end ArrayDefinition

def controlValueIsCompatible (control : ControlDefinition) (value : Value) : Bool :=
  if value.isNull then control.acceptsNull
  else
    match control.kind with
    | .string => value.isString
    | .number => value.isNumber
    | .integer => value.asNumber.any numberIsInteger
    | .boolean => value.isBoolean
    | .choice | .constant | .null => control.choices.any (jsonValuesEqual · value)

def arrayItemPointer (array : Pointer) (index : Nat) : Pointer := array ++ [Nat.repr index]

theorem arrayItemPointer_apart (array : Pointer) {i j : Nat} (h : i ≠ j) (p q : Pointer) :
    Pointer.Apart (arrayItemPointer array i ++ p) (arrayItemPointer array j ++ q) := by
  induction array with
  | nil =>
    have hne : Nat.repr i ≠ Nat.repr j := fun he => h (Token.repr_inj he)
    simp [arrayItemPointer, Pointer.Apart, Pointer.startsWith, List.isPrefixOf, hne, hne.symm]
  | cons t array ih => exact Pointer.apart_cons.mpr ih

/-! ## Well-formed projections -/

/-- An item template is one scalar, or an object with controls at distinct places inside it. -/
structure ArrayItemTemplate.WellFormed (template : ArrayItemTemplate) : Prop where
  controls_apart : (template.controls.map (·.binding)).Pairwise Pointer.Apart
  objects_above : ∀ o ∈ template.objects, ∀ c ∈ template.controls,
    o.binding.startsWith c.binding = false
  choices_wf : ∀ c ∈ template.controls, ∀ v ∈ c.choices, v.WF
  seed_wf : template.creationSeed.WF
  object_seed_wf : ∀ o ∈ template.objects, o.creationSeed.WF
  defaults_wf : ∀ c ∈ template.controls, ∀ v ∈ c.annotations.defaults, v.WF
  object_seed_isObject : ∀ o ∈ template.objects, o.creationSeed.isObject = true
  /-- An item is removed through its array only. -/
  scalar_required : ∀ c ∈ template.controls, c.binding = [] → c.required = true
  object_required : ∀ o ∈ template.objects, o.binding = [] → o.required = true

structure FormDefinition.WellFormed (definition : FormDefinition) : Prop where
  /-- Controls and arrays are leaves of the projection: no binding lies on the way to another. -/
  leaves_apart : (definition.controls.map (·.binding) ++
    definition.arrays.map (·.binding)).Pairwise Pointer.Apart
  leaves_ne_root : ∀ b ∈ definition.controls.map (·.binding) ++ definition.arrays.map (·.binding),
    b ≠ []
  /-- An object stands above the leaves inside it and apart from the others. -/
  objects_above : ∀ o ∈ definition.objects, ∀ b ∈ definition.controls.map (·.binding) ++
    definition.arrays.map (·.binding), o.binding.startsWith b = false
  objects_ne_root : ∀ o ∈ definition.objects, o.binding ≠ []
  template_wf : ∀ a ∈ definition.arrays, a.itemTemplate.WellFormed
  choices_wf : ∀ c ∈ definition.controls, ∀ v ∈ c.choices, v.WF
  array_seed_wf : ∀ a ∈ definition.arrays, a.creationSeed.WF
  object_seed_wf : ∀ o ∈ definition.objects, o.creationSeed.WF
  defaults_wf : ∀ c ∈ definition.controls, ∀ v ∈ c.annotations.defaults, v.WF
  array_defaults_wf : ∀ a ∈ definition.arrays, ∀ v ∈ a.annotations.defaults, v.WF
  array_seed_isArray : ∀ a ∈ definition.arrays, a.creationSeed.isArray = true
  object_seed_isObject : ∀ o ∈ definition.objects, o.creationSeed.isObject = true

end Engine

end Schemaform
