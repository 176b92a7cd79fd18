import Mathlib.Data.Char
import Schemaform.Json.Pointer
import Schemaform.Ui.Serde

/-!
# Ui.V1

The UI schema, version 1, and the JSON it is written as.

* `ExtensionNamespace`, `WidgetSymbol`, `GridSpan`, `ExtensionMap`: values that only a check or a
  builder makes, so the check is part of the type. What a URI is stays a parameter.
* `Element`: the seven elements; `UiSchema`: a layout with the extensions it requires.
* `Element.serialize`, `UiSchema.serialize`: one `serialize` for each struct.
-/

namespace Schemaform.Ui.V1

/-! ## Checked values -/

structure ExtensionNamespace (isUri : String → Bool) where
  text : String
  uri : isUri text = true
deriving DecidableEq

structure WidgetSymbol where
  text : String
  nonempty : text ≠ ""
deriving DecidableEq

structure GridSpan where
  value : Nat
  range : 1 ≤ value ∧ value ≤ 12
deriving DecidableEq

/-- A map from namespaces to values, in the order of the namespaces. -/
structure ExtensionMap (isUri : String → Bool) where
  entries : List (String × Value)
  sorted : SortedMap.Sorted entries
  uris : ∀ entry ∈ entries, isUri entry.1 = true
deriving DecidableEq

variable {isUri : String → Bool}

namespace ExtensionMap

def empty : ExtensionMap isUri := ⟨[], .nil, fun _ h => absurd h List.not_mem_nil⟩

def insert (extensions : ExtensionMap isUri) (key : ExtensionNamespace isUri) (value : Value) :
    ExtensionMap isUri where
  entries := SortedMap.insert key.text value extensions.entries
  sorted := extensions.sorted.insert key.text value
  uris := by
    intro entry hentry
    rcases SortedMap.mem_insert hentry with rfl | hentry
    · exact key.uri
    · exact extensions.uris entry hentry

def contains (extensions : ExtensionMap isUri) (key : ExtensionNamespace isUri) : Bool :=
  (SortedMap.get key.text extensions.entries).isSome

end ExtensionMap

/-! ## Parts -/

structure ElementMeta (isUri : String → Bool) where
  id : Option String
  extensions : ExtensionMap isUri
deriving DecidableEq

inductive BindingOrigin where
  | root
  | itemTemplate
deriving DecidableEq

structure Binding where
  origin : BindingOrigin
  pointer : Pointer
deriving DecidableEq

structure TextReference where
  fallback : String
  key : Option String
deriving DecidableEq

inductive TextSetting where
  | inherit
  | suppress
  | value (reference : TextReference)
deriving DecidableEq

inductive PropertyPosition where
  | property (name : String)
  | remaining
deriving DecidableEq

structure PropertySelection where
  includeValue : List String
  excludeValue : List String
  orderValue : List PropertyPosition
deriving DecidableEq

/-! ## Elements -/

structure Control (isUri : String → Bool) (ε : Type) where
  metaValue : ElementMeta isUri
  binding : Binding
  label : TextSetting
  help : TextSetting
  widget : Option WidgetSymbol
  itemTemplate : Option ε
  itemLabel : Option TextReference

structure Auto (isUri : String → Bool) where
  metaValue : ElementMeta isUri
  binding : Binding
  properties : PropertySelection

structure Stack (isUri : String → Bool) (ε : Type) where
  metaValue : ElementMeta isUri
  children : List ε

structure GridCell (ε : Type) where
  compactSpan : GridSpan
  wideSpan : Option GridSpan
  child : ε

structure Grid (isUri : String → Bool) (ε : Type) where
  metaValue : ElementMeta isUri
  cells : List (GridCell ε)

structure Group (isUri : String → Bool) (ε : Type) where
  metaValue : ElementMeta isUri
  title : TextReference
  child : ε

structure TabPanel (ε : Type) where
  title : TextReference
  child : ε

structure Tabs (isUri : String → Bool) (ε : Type) where
  metaValue : ElementMeta isUri
  panels : List (TabPanel ε)

structure Text (isUri : String → Bool) where
  metaValue : ElementMeta isUri
  content : TextReference

inductive Element (isUri : String → Bool) where
  | control (control : Control isUri (Element isUri))
  | auto (auto : Auto isUri)
  | stack (stack : Stack isUri (Element isUri))
  | grid (grid : Grid isUri (Element isUri))
  | group (group : Group isUri (Element isUri))
  | tabs (tabs : Tabs isUri (Element isUri))
  | text (text : Text isUri)

inductive Version where
  | v1
deriving DecidableEq

structure UiSchema (isUri : String → Bool) where
  version : Version
  requiredExtensions : List (ExtensionNamespace isUri)
  root : Element isUri

/-- Induction with one hypothesis for the elements right below. -/
theorem Element.induct {P : Element isUri → Prop}
    (control : ∀ control, (∀ child ∈ control.itemTemplate, P child) → P (.control control))
    (auto : ∀ auto, P (.auto auto))
    (stack : ∀ stack, (∀ child ∈ stack.children, P child) → P (.stack stack))
    (grid : ∀ grid, (∀ cell ∈ grid.cells, P cell.child) → P (.grid grid))
    (group : ∀ group, P group.child → P (.group group))
    (tabs : ∀ tabs, (∀ panel ∈ tabs.panels, P panel.child) → P (.tabs tabs))
    (text : ∀ text, P (.text text)) (element : Element isUri) : P element := by
  refine @Element.rec isUri P (fun control => ∀ child ∈ control.itemTemplate, P child)
    (fun stack => ∀ child ∈ stack.children, P child) (fun grid => ∀ cell ∈ grid.cells, P cell.child)
    (fun group => P group.child) (fun tabs => ∀ panel ∈ tabs.panels, P panel.child)
    (fun child => ∀ inner ∈ child, P inner) (fun children => ∀ child ∈ children, P child)
    (fun cells => ∀ cell ∈ cells, P cell.child) (fun panels => ∀ panel ∈ panels, P panel.child)
    (fun cell => P cell.child) (fun panel => P panel.child)
    control auto stack grid group tabs text (fun _ _ _ _ _ _ _ h => h) (fun _ _ h => h)
    (fun _ _ h => h) (fun _ _ _ h => h) (fun _ _ h => h) ?_ ?_ ?_ ?_ ?_ ?_ ?_ ?_
    (fun _ _ _ h => h) (fun _ _ h => h) element
  · intro child h
    cases h
  · intro child hchild inner h
    exact Option.some.inj h ▸ hchild
  · exact fun _ h => absurd h List.not_mem_nil
  · intro child children hchild hchildren
    exact List.forall_mem_cons.mpr ⟨hchild, hchildren⟩
  · exact fun _ h => absurd h List.not_mem_nil
  · intro cell cells hcell hcells
    exact List.forall_mem_cons.mpr ⟨hcell, hcells⟩
  · exact fun _ h => absurd h List.not_mem_nil
  · intro panel panels hpanel hpanels
    exact List.forall_mem_cons.mpr ⟨hpanel, hpanels⟩

/-! ## Writing -/

def BindingOrigin.serialize : BindingOrigin → Value
  | .root => .string "root"
  | .itemTemplate => .string "item_template"

def Binding.serialize (binding : Binding) : Value :=
  record [("origin", binding.origin.serialize), ("pointer", .string binding.pointer.text)]

def TextReference.serialize (reference : TextReference) : Value :=
  record [("fallback", .string reference.fallback),
    ("key", serializeOption Value.string reference.key)]

def TextSetting.serialize : TextSetting → Value
  | .inherit => .string "inherit"
  | .suppress => .string "suppress"
  | .value reference => newtypeVariant "value" reference.serialize

def PropertyPosition.serialize : PropertyPosition → Value
  | .property name => newtypeVariant "property" (.string name)
  | .remaining => .string "remaining"

def PropertySelection.serialize (selection : PropertySelection) : Value :=
  record [("include", .array (selection.includeValue.map .string)),
    ("exclude", .array (selection.excludeValue.map .string)),
    ("order", .array (selection.orderValue.map PropertyPosition.serialize))]

def WidgetSymbol.serialize (widget : WidgetSymbol) : Value := .string widget.text

def GridSpan.serialize (span : GridSpan) : Value := .number (Nat.repr span.value)

/-- `#[serde(flatten)] meta` -/
def ElementMeta.fields (metaValue : ElementMeta isUri) : List (String × Value) :=
  [("id", serializeOption Value.string metaValue.id),
    ("extensions", .object metaValue.extensions.entries)]

def Auto.serialize (auto : Auto isUri) : Value :=
  record (auto.metaValue.fields ++ [("binding", auto.binding.serialize),
    ("properties", auto.properties.serialize)])

mutual

def Element.serialize : Element isUri → Value
  | .control control => adjacent "control" (Control.serialize control)
  | .auto auto => adjacent "auto" auto.serialize
  | .stack stack => adjacent "stack" (Stack.serialize stack)
  | .grid grid => adjacent "grid" (Grid.serialize grid)
  | .group group => adjacent "group" (Group.serialize group)
  | .tabs tabs => adjacent "tabs" (Tabs.serialize tabs)
  | .text text => adjacent "text" (record (text.metaValue.fields ++
      [("content", text.content.serialize)]))

def Control.serialize : Control isUri (Element isUri) → Value
  | ⟨metaValue, binding, label, help, widget, itemTemplate, itemLabel⟩ =>
  record (metaValue.fields ++ [("binding", binding.serialize),
    ("label", label.serialize), ("help", help.serialize),
    ("widget", serializeOption WidgetSymbol.serialize widget),
    ("item_template", serializeTemplate itemTemplate),
    ("item_label", serializeOption TextReference.serialize itemLabel)])

def Stack.serialize : Stack isUri (Element isUri) → Value
  | ⟨metaValue, children⟩ =>
    record (metaValue.fields ++ [("children", .array (serializeElements children))])

def Grid.serialize : Grid isUri (Element isUri) → Value
  | ⟨metaValue, cells⟩ =>
    record (metaValue.fields ++ [("cells", .array (serializeCells cells))])

def GridCell.serialize : GridCell (Element isUri) → Value
  | ⟨compactSpan, wideSpan, child⟩ =>
    record [("compact_span", compactSpan.serialize),
      ("wide_span", serializeOption GridSpan.serialize wideSpan),
      ("child", Element.serialize child)]

def Group.serialize : Group isUri (Element isUri) → Value
  | ⟨metaValue, title, child⟩ =>
    record (metaValue.fields ++ [("title", title.serialize), ("child", Element.serialize child)])

def Tabs.serialize : Tabs isUri (Element isUri) → Value
  | ⟨metaValue, panels⟩ =>
    record (metaValue.fields ++ [("panels", .array (serializePanels panels))])

def TabPanel.serialize : TabPanel (Element isUri) → Value
  | ⟨title, child⟩ => record [("title", title.serialize), ("child", Element.serialize child)]

def serializeTemplate : Option (Element isUri) → Value
  | none => .null
  | some template => Element.serialize template

def serializeElements : List (Element isUri) → List Value
  | [] => []
  | child :: children => Element.serialize child :: serializeElements children

def serializeCells : List (GridCell (Element isUri)) → List Value
  | [] => []
  | cell :: cells => GridCell.serialize cell :: serializeCells cells

def serializePanels : List (TabPanel (Element isUri)) → List Value
  | [] => []
  | panel :: panels => TabPanel.serialize panel :: serializePanels panels

end

theorem serializeElements_eq (children : List (Element isUri)) :
    serializeElements children = children.map Element.serialize := by
  induction children with
  | nil => rfl
  | cons child children ih => rw [serializeElements, ih, List.map_cons]

theorem serializeCells_eq (cells : List (GridCell (Element isUri))) :
    serializeCells cells = cells.map GridCell.serialize := by
  induction cells with
  | nil => rfl
  | cons cell cells ih => rw [serializeCells, ih, List.map_cons]

theorem serializePanels_eq (panels : List (TabPanel (Element isUri))) :
    serializePanels panels = panels.map TabPanel.serialize := by
  induction panels with
  | nil => rfl
  | cons panel panels ih => rw [serializePanels, ih, List.map_cons]

def Version.serialize : Version → Value
  | .v1 => .number "1"

def UiSchema.serialize (schema : UiSchema isUri) : Value :=
  record [("version", schema.version.serialize),
    ("required_extensions", .array (schema.requiredExtensions.map (.string ·.text))),
    ("root", schema.root.serialize)]

end Schemaform.Ui.V1
