import Schemaform.Json.Equal
import Schemaform.Ui.V1

/-!
# Ui.Wire

Reading a UI schema from JSON, by the wire structures and their conversions.

* `deserializeExtensionMap`: namespaces are URIs and stand once each.
* `Control.deserialize` and the others: one for each wire structure, the reader of the elements
  inside as a parameter.
* `Element.deserialize`: an element of any depth; `Element.deserialize_eq`: the number of nodes
  is always enough.
* `UiSchema.deserialize`.
-/

namespace Schemaform.Ui.V1

variable {isUri : String → Bool}

/-! ## Checked values -/

def ExtensionNamespace.parse (text : String) : Option (ExtensionNamespace isUri) :=
  if h : isUri text = true then some ⟨text, h⟩ else none

def ExtensionNamespace.deserialize (value : Value) : Option (ExtensionNamespace isUri) :=
  (deserializeString value).bind parse

def WidgetSymbol.parse (text : String) : Option WidgetSymbol :=
  if h : text ≠ "" then some ⟨text, h⟩ else none

def WidgetSymbol.deserialize (value : Value) : Option WidgetSymbol :=
  (deserializeString value).bind parse

def GridSpan.tryFrom (value : Nat) : Option GridSpan :=
  if h : 1 ≤ value ∧ value ≤ 12 then some ⟨value, h⟩ else none

def deserializeU8 : Value → Option Nat
  | .number literal => (parseDigits literal.toList).filter fun value => decide (value < 256)
  | _ => none

def GridSpan.deserialize (value : Value) : Option GridSpan := (deserializeU8 value).bind tryFrom

def visitExtensions :
    List (String × Value) → ExtensionMap isUri → Option (ExtensionMap isUri)
  | [], extensions => some extensions
  | (key, value) :: values, extensions => do
    let key ← ExtensionNamespace.parse key
    if extensions.contains key then none else visitExtensions values (extensions.insert key value)

def deserializeExtensionMap : Value → Option (ExtensionMap isUri)
  | .object members => visitExtensions members .empty
  | _ => none

def Version.deserialize : Value → Option Version
  | .number literal =>
    if jsonValuesEqual (.number literal) (.number "1") then some .v1 else none
  | _ => none

/-! ## Parts -/

def BindingOrigin.deserialize (value : Value) : Option BindingOrigin := do
  let (name, content) ← variantAccess value
  match name with
  | "root" => (unitVariant content).map fun _ => .root
  | "item_template" => (unitVariant content).map fun _ => .itemTemplate
  | _ => none

def deserializePointer (value : Value) : Option Pointer :=
  (deserializeString value).bind Pointer.parse

def Binding.deserialize (value : Value) : Option Binding := do
  let fields ← structFields ["origin", "pointer"] 2 value
  let origin ← requiredField fields "origin" BindingOrigin.deserialize
  let pointer ← requiredField fields "pointer" deserializePointer
  return ⟨origin, pointer⟩

def TextReference.deserialize (value : Value) : Option TextReference := do
  let fields ← structFields ["fallback", "key"] 2 value
  let fallback ← requiredField fields "fallback" deserializeString
  -- an absent `Option` field of an object is none without `#[serde(default)]`
  let key ← defaultedField fields "key" none (deserializeOption deserializeString)
  return ⟨fallback, key⟩

def TextSetting.deserialize (value : Value) : Option TextSetting := do
  let (name, content) ← variantAccess value
  match name with
  | "inherit" => (unitVariant content).map fun _ => .inherit
  | "suppress" => (unitVariant content).map fun _ => .suppress
  | "value" => (content.bind TextReference.deserialize).map .value
  | _ => none

def PropertyPosition.deserialize (value : Value) : Option PropertyPosition := do
  let (name, content) ← variantAccess value
  match name with
  | "property" => (content.bind deserializeString).map .property
  | "remaining" => (unitVariant content).map fun _ => .remaining
  | _ => none

def PropertySelection.deserialize (value : Value) : Option PropertySelection := do
  let fields ← structFields ["include", "exclude", "order"] 0 value
  let includeValue ← defaultedField fields "include" [] (deserializeVec deserializeString)
  let excludeValue ← defaultedField fields "exclude" [] (deserializeVec deserializeString)
  let orderValue ← defaultedField fields "order" [] (deserializeVec PropertyPosition.deserialize)
  return ⟨includeValue, excludeValue, orderValue⟩

/-- The fields `id` and `extensions` of every wire structure. -/
def ElementMeta.ofFields (fields : String → Option Value) : Option (ElementMeta isUri) := do
  let id ← defaultedField fields "id" none (deserializeOption deserializeString)
  let extensions ← defaultedField fields "extensions" .empty deserializeExtensionMap
  return ⟨id, extensions⟩

/-! ## Elements -/

section Elements

variable {ε : Type} (element : Value → Option ε)

def Control.deserialize (value : Value) : Option (Control isUri ε) := do
  let fields ← structFields ["id", "extensions", "binding", "label", "help", "widget",
    "item_template", "item_label"] 3 value
  let metaValue ← ElementMeta.ofFields fields
  let binding ← requiredField fields "binding" Binding.deserialize
  let label ← defaultedField fields "label" .inherit TextSetting.deserialize
  let help ← defaultedField fields "help" .inherit TextSetting.deserialize
  let widget ← defaultedField fields "widget" none (deserializeOption WidgetSymbol.deserialize)
  let itemTemplate ← defaultedField fields "item_template" none (deserializeOption element)
  let itemLabel ←
    defaultedField fields "item_label" none (deserializeOption TextReference.deserialize)
  return ⟨metaValue, binding, label, help, widget, itemTemplate, itemLabel⟩

def Auto.deserialize (value : Value) : Option (Auto isUri) := do
  let fields ← structFields ["id", "extensions", "binding", "properties"] 3 value
  let metaValue ← ElementMeta.ofFields fields
  let binding ← requiredField fields "binding" Binding.deserialize
  let properties ← defaultedField fields "properties" ⟨[], [], []⟩ PropertySelection.deserialize
  return ⟨metaValue, binding, properties⟩

def Stack.deserialize (value : Value) : Option (Stack isUri ε) := do
  let fields ← structFields ["id", "extensions", "children"] 3 value
  let metaValue ← ElementMeta.ofFields fields
  let children ← requiredField fields "children" (deserializeVec element)
  return ⟨metaValue, children⟩

def GridCell.deserialize (value : Value) : Option (GridCell ε) := do
  let fields ← structFields ["compact_span", "wide_span", "child"] 3 value
  let compactSpan ← requiredField fields "compact_span" GridSpan.deserialize
  let wideSpan ← defaultedField fields "wide_span" none (deserializeOption GridSpan.deserialize)
  let child ← requiredField fields "child" element
  return ⟨compactSpan, wideSpan, child⟩

def Grid.deserialize (value : Value) : Option (Grid isUri ε) := do
  let fields ← structFields ["id", "extensions", "cells"] 3 value
  let metaValue ← ElementMeta.ofFields fields
  let cells ← requiredField fields "cells" (deserializeVec (GridCell.deserialize element))
  return ⟨metaValue, cells⟩

def Group.deserialize (value : Value) : Option (Group isUri ε) := do
  let fields ← structFields ["id", "extensions", "title", "child"] 4 value
  let metaValue ← ElementMeta.ofFields fields
  let title ← requiredField fields "title" TextReference.deserialize
  let child ← requiredField fields "child" element
  return ⟨metaValue, title, child⟩

def TabPanel.deserialize (value : Value) : Option (TabPanel ε) := do
  let fields ← structFields ["title", "child"] 2 value
  let title ← requiredField fields "title" TextReference.deserialize
  let child ← requiredField fields "child" element
  return ⟨title, child⟩

def Tabs.deserialize (value : Value) : Option (Tabs isUri ε) := do
  let fields ← structFields ["id", "extensions", "panels"] 3 value
  let metaValue ← ElementMeta.ofFields fields
  let panels ← requiredField fields "panels" (deserializeVec (TabPanel.deserialize element))
  return ⟨metaValue, panels⟩

def Text.deserialize (value : Value) : Option (Text isUri) := do
  let fields ← structFields ["id", "extensions", "content"] 3 value
  let metaValue ← ElementMeta.ofFields fields
  let content ← requiredField fields "content" TextReference.deserialize
  return ⟨metaValue, content⟩

end Elements

/-- The variant a tag names, its content read with the given reader of elements. -/
def Element.deserializeWith (element : Value → Option (Element isUri)) (value : Value) :
    Option (Element isUri) := do
  let (tag, content) ← adjacentlyTagged value
  match tag with
  | "control" => (Control.deserialize element content).map .control
  | "auto" => (Auto.deserialize content).map .auto
  | "stack" => (Stack.deserialize element content).map .stack
  | "grid" => (Grid.deserialize element content).map .grid
  | "group" => (Group.deserialize element content).map .group
  | "tabs" => (Tabs.deserialize element content).map .tabs
  | "text" => (Text.deserialize content).map .text
  | _ => none

def Element.deserializeFuel : Nat → Value → Option (Element isUri)
  | 0, _ => none
  | fuel + 1, value => Element.deserializeWith (Element.deserializeFuel fuel) value

def Element.deserialize (value : Value) : Option (Element isUri) :=
  Element.deserializeFuel value.nodeCount value

def UiSchema.deserialize (value : Value) : Option (UiSchema isUri) := do
  let fields ← structFields ["version", "required_extensions", "root"] 3 value
  let version ← requiredField fields "version" Version.deserialize
  let requiredExtensions ← defaultedField fields "required_extensions" []
    (deserializeVec ExtensionNamespace.deserialize)
  let root ← requiredField fields "root" Element.deserialize
  return ⟨version, requiredExtensions, root⟩

/-! ## Enough fuel -/

section Fuel

variable {ε : Type} {element other : Value → Option ε} {value : Value}
  (h : ∀ inner : Value, inner.nodeCount < value.nodeCount → element inner = other inner)

include h

theorem Control.deserialize_congr :
    (Control.deserialize element value : Option (Control isUri ε)) =
    Control.deserialize other value := by
  refine Option.bind_congr fun fields hf => ?_
  have hoption : ∀ inner : Value, inner.nodeCount < value.nodeCount →
      deserializeOption element inner = deserializeOption other inner :=
    fun inner hi => deserializeOption_congr h hi
  have htemplate := defaultedField_congr hoption hf "item_template" none
  rw [htemplate]

theorem Stack.deserialize_congr :
    (Stack.deserialize element value : Option (Stack isUri ε)) = Stack.deserialize other value := by
  refine Option.bind_congr fun fields hf => ?_
  have hvec : ∀ inner : Value, inner.nodeCount < value.nodeCount →
      deserializeVec element inner = deserializeVec other inner :=
    fun inner hi => deserializeVec_congr fun item hitem => h item (hitem.trans hi)
  rw [requiredField_congr hvec hf "children"]

theorem GridCell.deserialize_congr :
    GridCell.deserialize element value = GridCell.deserialize other value := by
  refine Option.bind_congr fun fields hf => ?_
  rw [requiredField_congr h hf "child"]

theorem Grid.deserialize_congr :
    (Grid.deserialize element value : Option (Grid isUri ε)) = Grid.deserialize other value := by
  refine Option.bind_congr fun fields hf => ?_
  have hvec : ∀ inner : Value, inner.nodeCount < value.nodeCount →
      deserializeVec (GridCell.deserialize element) inner =
        deserializeVec (GridCell.deserialize other) inner :=
    fun inner hi => deserializeVec_congr fun cell hcell =>
      GridCell.deserialize_congr fun item hitem => h item (hitem.trans (hcell.trans hi))
  rw [requiredField_congr hvec hf "cells"]

theorem Group.deserialize_congr :
    (Group.deserialize element value : Option (Group isUri ε)) = Group.deserialize other value := by
  refine Option.bind_congr fun fields hf => ?_
  rw [requiredField_congr h hf "child"]

theorem TabPanel.deserialize_congr :
    TabPanel.deserialize element value = TabPanel.deserialize other value := by
  refine Option.bind_congr fun fields hf => ?_
  rw [requiredField_congr h hf "child"]

theorem Tabs.deserialize_congr :
    (Tabs.deserialize element value : Option (Tabs isUri ε)) = Tabs.deserialize other value := by
  refine Option.bind_congr fun fields hf => ?_
  have hvec : ∀ inner : Value, inner.nodeCount < value.nodeCount →
      deserializeVec (TabPanel.deserialize element) inner =
        deserializeVec (TabPanel.deserialize other) inner :=
    fun inner hi => deserializeVec_congr fun panel hpanel =>
      TabPanel.deserialize_congr fun item hitem => h item (hitem.trans (hpanel.trans hi))
  rw [requiredField_congr hvec hf "panels"]

end Fuel

theorem Element.deserializeWith_congr {element other : Value → Option (Element isUri)}
    {value : Value}
    (h : ∀ inner : Value, inner.nodeCount < value.nodeCount → element inner = other inner) :
    Element.deserializeWith element value = Element.deserializeWith other value := by
  refine Option.bind_congr fun tagged ht => ?_
  have hinner : ∀ inner : Value, inner.nodeCount < tagged.2.nodeCount →
      element inner = other inner :=
    fun inner hi => h inner (hi.trans (adjacentlyTagged_smaller ht))
  dsimp only
  rw [Control.deserialize_congr hinner, Stack.deserialize_congr hinner,
    Grid.deserialize_congr hinner, Group.deserialize_congr hinner, Tabs.deserialize_congr hinner]

theorem Element.deserializeFuel_eq {value : Value} {m n : Nat} (hm : value.nodeCount ≤ m)
    (hn : value.nodeCount ≤ n) : (Element.deserializeFuel m value : Option (Element isUri)) =
      Element.deserializeFuel n value := by
  induction m generalizing n value with
  | zero =>
    have := value.nodeCount_pos
    omega
  | succ m ih =>
    cases n with
    | zero =>
      have := value.nodeCount_pos
      omega
    | succ n =>
      refine Element.deserializeWith_congr fun inner hi => ?_
      exact ih (by omega) (by omega)

/-- The fuel never runs out. -/
theorem Element.deserialize_eq (value : Value) :
    (Element.deserialize value : Option (Element isUri)) =
      Element.deserializeWith Element.deserialize value := by
  unfold Element.deserialize
  obtain ⟨fuel, hfuel⟩ := Nat.exists_eq_succ_of_ne_zero value.nodeCount_pos.ne'
  rw [hfuel]
  refine Element.deserializeWith_congr fun inner hi => ?_
  exact Element.deserializeFuel_eq (by omega) (Nat.le_refl _)

end Schemaform.Ui.V1
