import Schemaform.Ui.V1

/-!
# Ui.Shape

What a UI schema is to a serializer, call by call.

* `Shape`: the calls of the serde data model that a UI schema makes.
* `Value.toShape`, `Element.shape`, `UiSchema.shape`: the calls of each part.
* `Shape.toValue`: the document they spell, with what stands for a number left open.
* `Shape.numberDepths`: where the numbers of `serde_json` lie.
-/

namespace Schemaform.Ui

/-- The calls one value makes to a serializer. The names of types, which no method reads, are left
out; so are the lengths of sequences and structs, which are how many items and fields follow. A map
is announced with its length or without. -/
inductive Shape where
  | unit
  | none
  | some (value : Shape)
  | bool (value : Bool)
  | u64 (value : Nat)
  | str (text : String)
  | unitVariant (variant : String)
  | newtypeVariant (variant : String) (value : Shape)
  | seq (items : List Shape)
  | map (announced : Bool) (entries : List (String × Shape))
  | struct (fields : List (String × Shape))
  /-- `serde_json::Number` under arbitrary precision: a struct of one field, its text. -/
  | number (literal : String)

/-- The name of that struct and of its field. -/
def numberToken : String := "$serde_json::private::Number"

namespace Shape

/-- Induction with one hypothesis for the shapes right below. -/
theorem induct {P : Shape → Prop} (unit : P .unit) (none : P .none)
    (some : ∀ value, P value → P (.some value)) (bool : ∀ value, P (.bool value))
    (u64 : ∀ value, P (.u64 value)) (str : ∀ text, P (.str text))
    (unitVariant : ∀ variant, P (.unitVariant variant))
    (newtypeVariant : ∀ variant value, P value → P (.newtypeVariant variant value))
    (seq : ∀ items, (∀ item ∈ items, P item) → P (.seq items))
    (map : ∀ announced entries, (∀ entry ∈ entries, P entry.2) → P (.map announced entries))
    (struct : ∀ fields, (∀ field ∈ fields, P field.2) → P (.struct fields))
    (number : ∀ literal, P (.number literal)) (shape : Shape) : P shape := by
  refine @Shape.rec P (fun items => ∀ item ∈ items, P item)
    (fun entries => ∀ entry ∈ entries, P entry.2) (fun entry => P entry.2)
    unit none some bool u64 str unitVariant newtypeVariant seq map struct number
    ?_ ?_ ?_ ?_ (fun _ _ h => h) shape
  · exact fun _ h => absurd h List.not_mem_nil
  · intro item items hitem hitems
    exact List.forall_mem_cons.mpr ⟨hitem, hitems⟩
  · exact fun _ h => absurd h List.not_mem_nil
  · intro entry entries hentry hentries
    exact List.forall_mem_cons.mpr ⟨hentry, hentries⟩

mutual

/-- The document a shape spells, its entries in the order of the calls. -/
def toValue (ofNumber : String → Value) : Shape → Value
  | unit | none => .null
  | some value => toValue ofNumber value
  | bool value => .bool value
  | u64 value => .number (Nat.repr value)
  | str text => .string text
  | unitVariant variant => .string variant
  | newtypeVariant variant value => .object [(variant, toValue ofNumber value)]
  | seq items => .array (toItems ofNumber items)
  | map _ entries => .object (toMembers ofNumber entries)
  | struct fields => .object (toMembers ofNumber fields)
  | number literal => ofNumber literal

def toItems (ofNumber : String → Value) : List Shape → List Value
  | [] => []
  | item :: items => toValue ofNumber item :: toItems ofNumber items

def toMembers (ofNumber : String → Value) : List (String × Shape) → List (String × Value)
  | [] => []
  | (key, value) :: entries => (key, toValue ofNumber value) :: toMembers ofNumber entries

end

/-- As `serde_json` writes it. -/
def json (shape : Shape) : Value := toValue .number shape

/-- As it looks to a serializer that takes a number for the struct it is handed as. -/
def document (shape : Shape) : Value :=
  toValue (fun literal => .object [(numberToken, .string literal)]) shape

mutual

/-- The depths at which a shape has a number. -/
def numberDepths (depth : Nat) : Shape → List Nat
  | some value => numberDepths depth value
  | newtypeVariant _ value => numberDepths (depth + 1) value
  | seq items => itemNumberDepths (depth + 1) items
  | map _ entries => entryNumberDepths (depth + 1) entries
  | struct fields => entryNumberDepths (depth + 1) fields
  | number _ => [depth]
  | _ => []

def itemNumberDepths (depth : Nat) : List Shape → List Nat
  | [] => []
  | item :: items => numberDepths depth item ++ itemNumberDepths depth items

def entryNumberDepths (depth : Nat) : List (String × Shape) → List Nat
  | [] => []
  | (_, value) :: entries => numberDepths depth value ++ entryNumberDepths depth entries

end

end Shape

def optionShape {α : Type} (shape : α → Shape) : Option α → Shape
  | none => .none
  | some value => .some (shape value)

/-- `#[serde(tag = "type", content = "value")]` -/
def adjacentShape (tag : String) (content : Shape) : Shape :=
  .struct [("type", .unitVariant tag), ("value", content)]

end Schemaform.Ui

namespace Schemaform.Value

open Ui

mutual

def toShape : Value → Shape
  | .null => .unit
  | .bool b => .bool b
  | .number literal => .number literal
  | .string s => .str s
  | .array items => .seq (itemShapes items)
  | .object members => .map true (memberShapes members)

def itemShapes : List Value → List Shape
  | [] => []
  | v :: vs => toShape v :: itemShapes vs

def memberShapes : List (String × Value) → List (String × Shape)
  | [] => []
  | (key, v) :: vs => (key, toShape v) :: memberShapes vs

end

end Schemaform.Value

namespace Schemaform.Ui.V1

variable {isUri : String → Bool}

def BindingOrigin.shape : BindingOrigin → Shape
  | .root => .unitVariant "root"
  | .itemTemplate => .unitVariant "item_template"

def Binding.shape (binding : Binding) : Shape :=
  .struct [("origin", binding.origin.shape), ("pointer", .str binding.pointer.text)]

def TextReference.shape (reference : TextReference) : Shape :=
  .struct [("fallback", .str reference.fallback), ("key", optionShape Shape.str reference.key)]

def TextSetting.shape : TextSetting → Shape
  | .inherit => .unitVariant "inherit"
  | .suppress => .unitVariant "suppress"
  | .value reference => .newtypeVariant "value" reference.shape

def PropertyPosition.shape : PropertyPosition → Shape
  | .property name => .newtypeVariant "property" (.str name)
  | .remaining => .unitVariant "remaining"

def PropertySelection.shape (selection : PropertySelection) : Shape :=
  .struct [("include", .seq (selection.includeValue.map Shape.str)),
    ("exclude", .seq (selection.excludeValue.map Shape.str)),
    ("order", .seq (selection.orderValue.map PropertyPosition.shape))]

def WidgetSymbol.shape (widget : WidgetSymbol) : Shape := .str widget.text

def GridSpan.shape (span : GridSpan) : Shape := .u64 span.value

/-- `#[serde(flatten)] meta`, whose fields become entries of the map around it. -/
def ElementMeta.entries (metaValue : ElementMeta isUri) : List (String × Shape) :=
  [("id", optionShape Shape.str metaValue.id),
    ("extensions", .map true (Value.memberShapes metaValue.extensions.entries))]

def Auto.shape (auto : Auto isUri) : Shape :=
  .map false (auto.metaValue.entries ++ [("binding", auto.binding.shape),
    ("properties", auto.properties.shape)])

mutual

def Element.shape : Element isUri → Shape
  | .control control => adjacentShape "control" (Control.shape control)
  | .auto auto => adjacentShape "auto" auto.shape
  | .stack stack => adjacentShape "stack" (Stack.shape stack)
  | .grid grid => adjacentShape "grid" (Grid.shape grid)
  | .group group => adjacentShape "group" (Group.shape group)
  | .tabs tabs => adjacentShape "tabs" (Tabs.shape tabs)
  | .text text => adjacentShape "text" (.map false (text.metaValue.entries ++
      [("content", text.content.shape)]))

def Control.shape : Control isUri (Element isUri) → Shape
  | ⟨metaValue, binding, label, help, widget, itemTemplate, itemLabel⟩ =>
    .map false (metaValue.entries ++ [("binding", binding.shape), ("label", label.shape),
      ("help", help.shape), ("widget", optionShape WidgetSymbol.shape widget),
      ("item_template", templateShape itemTemplate),
      ("item_label", optionShape TextReference.shape itemLabel)])

def Stack.shape : Stack isUri (Element isUri) → Shape
  | ⟨metaValue, children⟩ =>
    .map false (metaValue.entries ++ [("children", .seq (elementShapes children))])

def Grid.shape : Grid isUri (Element isUri) → Shape
  | ⟨metaValue, cells⟩ => .map false (metaValue.entries ++ [("cells", .seq (cellShapes cells))])

def GridCell.shape : GridCell (Element isUri) → Shape
  | ⟨compactSpan, wideSpan, child⟩ =>
    .struct [("compact_span", compactSpan.shape),
      ("wide_span", optionShape GridSpan.shape wideSpan), ("child", Element.shape child)]

def Group.shape : Group isUri (Element isUri) → Shape
  | ⟨metaValue, title, child⟩ =>
    .map false (metaValue.entries ++ [("title", title.shape), ("child", Element.shape child)])

def Tabs.shape : Tabs isUri (Element isUri) → Shape
  | ⟨metaValue, panels⟩ => .map false (metaValue.entries ++ [("panels", .seq (panelShapes panels))])

def TabPanel.shape : TabPanel (Element isUri) → Shape
  | ⟨title, child⟩ => .struct [("title", title.shape), ("child", Element.shape child)]

def templateShape : Option (Element isUri) → Shape
  | none => .none
  | some template => .some (Element.shape template)

def elementShapes : List (Element isUri) → List Shape
  | [] => []
  | child :: children => Element.shape child :: elementShapes children

def cellShapes : List (GridCell (Element isUri)) → List Shape
  | [] => []
  | cell :: cells => GridCell.shape cell :: cellShapes cells

def panelShapes : List (TabPanel (Element isUri)) → List Shape
  | [] => []
  | panel :: panels => TabPanel.shape panel :: panelShapes panels

end

theorem elementShapes_eq (children : List (Element isUri)) :
    elementShapes children = children.map Element.shape := by
  induction children with
  | nil => rfl
  | cons child children ih => rw [elementShapes, ih, List.map_cons]

theorem cellShapes_eq (cells : List (GridCell (Element isUri))) :
    cellShapes cells = cells.map GridCell.shape := by
  induction cells with
  | nil => rfl
  | cons cell cells ih => rw [cellShapes, ih, List.map_cons]

theorem panelShapes_eq (panels : List (TabPanel (Element isUri))) :
    panelShapes panels = panels.map TabPanel.shape := by
  induction panels with
  | nil => rfl
  | cons panel panels ih => rw [panelShapes, ih, List.map_cons]

/-- `#[serde(into = "u64")]` -/
def Version.shape : Version → Shape
  | .v1 => .u64 1

def UiSchema.shape (schema : UiSchema isUri) : Shape :=
  .struct [("version", schema.version.shape),
    ("required_extensions", .seq (schema.requiredExtensions.map (.str ·.text))),
    ("root", schema.root.shape)]

end Schemaform.Ui.V1
