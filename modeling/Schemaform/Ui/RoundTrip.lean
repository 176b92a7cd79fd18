import Mathlib.Tactic.IntervalCases
import Schemaform.Ui.Wire

/-!
# Ui.RoundTrip

Every UI schema is read back from the JSON it is written as.

* one `deserialize_serialize` for each part, then each element by the elements inside it.
* `UiSchema.deserialize_serialize`, `ui_schema_round_trip`.
-/

namespace Schemaform.Ui.V1

variable {isUri : String → Bool}

/-! ## Checked values -/

theorem ExtensionNamespace.deserialize_serialize (key : ExtensionNamespace isUri) :
    ExtensionNamespace.deserialize (.string key.text) = some key := dif_pos key.uri

theorem WidgetSymbol.deserialize_serialize (widget : WidgetSymbol) :
    WidgetSymbol.deserialize widget.serialize = some widget := dif_pos widget.nonempty

theorem GridSpan.deserialize_serialize (span : GridSpan) :
    GridSpan.deserialize span.serialize = some span := by
  obtain ⟨value, hlow, hhigh⟩ := span
  have hu8 : deserializeU8 (.number (Nat.repr value)) = some value := by
    interval_cases value <;> rfl
  unfold GridSpan.deserialize GridSpan.serialize
  rw [hu8]
  exact dif_pos ⟨hlow, hhigh⟩

/-- Namespaces in order are inserted each at the end. -/
theorem visitExtensions_sorted (entries : List (String × Value)) (before : ExtensionMap isUri)
    (hsorted : SortedMap.Sorted (before.entries ++ entries))
    (huris : ∀ entry ∈ before.entries ++ entries, isUri entry.1 = true) :
    visitExtensions entries before = some ⟨before.entries ++ entries, hsorted, huris⟩ := by
  induction entries generalizing before with
  | nil => simp [visitExtensions]
  | cons entry entries ih =>
    have hmem : entry ∈ before.entries ++ entry :: entries := by simp
    have huri := huris entry hmem
    have hlast : ∀ e ∈ before.entries, e.1 < entry.1 :=
      fun e he => (List.pairwise_append.mp hsorted).2.2 e he entry List.mem_cons_self
    have hinsert : (before.insert ⟨entry.1, huri⟩ entry.2).entries = before.entries ++ [entry] :=
      SortedMap.insert_last hlast
    have hfresh : before.contains ⟨entry.1, huri⟩ = false := by
      unfold ExtensionMap.contains
      rw [SortedMap.get_eq_none_iff.mpr fun e he => (hlast e he).ne]
      rfl
    have hparse : ExtensionNamespace.parse entry.1 = some ⟨entry.1, huri⟩ := dif_pos huri
    have hrest : (before.insert ⟨entry.1, huri⟩ entry.2).entries ++ entries =
        before.entries ++ entry :: entries := by
      rw [hinsert, List.append_assoc, List.singleton_append]
    have hsorted' := hsorted
    have huris' := huris
    rw [← hrest] at hsorted' huris'
    show (ExtensionNamespace.parse entry.1).bind _ = _
    rw [hparse, Option.bind_some, if_neg (by rw [hfresh]; exact Bool.false_ne_true),
      ih _ hsorted' huris']
    simp only [hrest]

theorem ExtensionMap.deserialize_serialize (extensions : ExtensionMap isUri) :
    deserializeExtensionMap (.object extensions.entries) = some extensions :=
  visitExtensions_sorted extensions.entries .empty extensions.sorted extensions.uris

theorem Version.deserialize_serialize (version : Version) :
    Version.deserialize version.serialize = some version := by
  cases version
  decide

/-! ## Parts -/

theorem deserializeString_string (text : String) : deserializeString (.string text) = some text :=
  rfl

theorem deserializeOption_string (text : Option String) :
    deserializeOption deserializeString (serializeOption Value.string text) = some text := by
  refine deserializeOption_serialize (fun inner _ => rfl) fun inner h => ?_
  cases h

theorem BindingOrigin.deserialize_serialize (origin : BindingOrigin) :
    BindingOrigin.deserialize origin.serialize = some origin := by
  cases origin <;> rfl

theorem Binding.deserialize_serialize (binding : Binding) :
    Binding.deserialize binding.serialize = some binding := by
  unfold Binding.deserialize Binding.serialize
  rw [structFields_record (by simp) (by simp)]
  simp [requiredField, lookup_cons, BindingOrigin.deserialize_serialize, deserializePointer,
    deserializeString_string, Pointer.parse_text]

theorem TextReference.deserialize_serialize (reference : TextReference) :
    TextReference.deserialize reference.serialize = some reference := by
  unfold TextReference.deserialize TextReference.serialize
  rw [structFields_record (by simp) (by simp)]
  simp [requiredField, defaultedField, lookup_cons, deserializeOption_string,
    deserializeString_string]

theorem TextSetting.deserialize_serialize (setting : TextSetting) :
    TextSetting.deserialize setting.serialize = some setting := by
  cases setting with
  | inherit => rfl
  | suppress => rfl
  | value reference =>
    show (TextReference.deserialize reference.serialize).map TextSetting.value = _
    rw [TextReference.deserialize_serialize]
    rfl

theorem PropertyPosition.deserialize_serialize (position : PropertyPosition) :
    PropertyPosition.deserialize position.serialize = some position := by
  cases position <;> rfl

theorem PropertySelection.deserialize_serialize (selection : PropertySelection) :
    PropertySelection.deserialize selection.serialize = some selection := by
  have hstrings : ∀ names : List String,
      deserializeVec deserializeString (.array (names.map .string)) = some names :=
    fun names => deserializeItems_map fun _ _ => rfl
  have horder : deserializeVec PropertyPosition.deserialize
      (.array (selection.orderValue.map PropertyPosition.serialize)) = some selection.orderValue :=
    deserializeItems_map fun position _ => position.deserialize_serialize
  unfold PropertySelection.deserialize PropertySelection.serialize
  rw [structFields_record (by simp) (by simp)]
  simp [defaultedField, lookup_cons, hstrings, horder]

theorem ElementMeta.ofFields_fields (metaValue : ElementMeta isUri)
    (rest : List (String × Value)) :
    ElementMeta.ofFields (fun name => (metaValue.fields ++ rest).lookup name) =
      some metaValue := by
  unfold ElementMeta.ofFields ElementMeta.fields
  simp [defaultedField, lookup_cons, deserializeOption_string, ExtensionMap.deserialize_serialize]

/-- A structure with an id and extensions: what stands for its fields. -/
theorem structFields_meta {names : List String} {leading : Nat} (metaValue : ElementMeta isUri)
    {rest : List (String × Value)}
    (hnames : ∀ name ∈ "id" :: "extensions" :: rest.map Prod.fst, name ∈ names)
    (hnodup : ("id" :: "extensions" :: rest.map Prod.fst).Nodup) :
    structFields names leading (record (metaValue.fields ++ rest)) =
      some fun name => (metaValue.fields ++ rest).lookup name := by
  refine structFields_record (fun field hfield => hnames field.1 ?_) hnodup
  exact List.mem_map_of_mem (f := Prod.fst) hfield

/-! ## Elements -/

theorem TextReference.serialize_ne_null (reference : TextReference) :
    reference.serialize ≠ .null := by
  intro h
  cases h

theorem Auto.deserialize_serialize (auto : Auto isUri) :
    Auto.deserialize auto.serialize = some auto := by
  unfold Auto.deserialize Auto.serialize
  rw [structFields_meta auto.metaValue (by simp) (by simp)]
  simp only [Option.bind_eq_bind, Option.bind_some, ElementMeta.ofFields_fields]
  simp [requiredField, defaultedField, ElementMeta.fields, lookup_cons,
    Binding.deserialize_serialize, PropertySelection.deserialize_serialize]

theorem Text.deserialize_serialize (text : Text isUri) :
    Text.deserialize (record (text.metaValue.fields ++ [("content", text.content.serialize)])) =
      some text := by
  unfold Text.deserialize
  rw [structFields_meta text.metaValue (by simp) (by simp)]
  simp only [Option.bind_eq_bind, Option.bind_some, ElementMeta.ofFields_fields]
  simp [requiredField, ElementMeta.fields, lookup_cons, TextReference.deserialize_serialize]

/-- The element reads back. -/
def ReadsBack (element : Element isUri) : Prop :=
  Element.deserialize element.serialize = some element

theorem Control.deserialize_serialize {control : Control isUri (Element isUri)}
    (h : ∀ child ∈ control.itemTemplate, ReadsBack child) :
    Control.deserialize Element.deserialize control.serialize = some control := by
  obtain ⟨metaValue, binding, label, help, widget, itemTemplate, itemLabel⟩ := control
  have hwidget : deserializeOption WidgetSymbol.deserialize
      (serializeOption WidgetSymbol.serialize widget) = some widget :=
    deserializeOption_serialize (fun inner _ => inner.deserialize_serialize) fun inner hn => by
      cases hn
  have hlabel : deserializeOption TextReference.deserialize
      (serializeOption TextReference.serialize itemLabel) = some itemLabel :=
    deserializeOption_serialize (fun inner _ => inner.deserialize_serialize)
      TextReference.serialize_ne_null
  have htemplate : deserializeOption Element.deserialize (serializeTemplate itemTemplate) =
      some itemTemplate := by
    cases itemTemplate with
    | none => rfl
    | some template =>
      have hread : Element.deserialize template.serialize = some template := h template rfl
      rw [serializeTemplate]
      unfold deserializeOption
      split
      · rename_i hnull
        rw [hnull] at hread
        cases hread
      · rw [hread]
        rfl
  unfold Control.deserialize
  rw [Control.serialize, structFields_meta metaValue (by simp) (by simp)]
  simp only [Option.bind_eq_bind, Option.bind_some, ElementMeta.ofFields_fields]
  simp [requiredField, defaultedField, ElementMeta.fields, lookup_cons,
    Binding.deserialize_serialize, TextSetting.deserialize_serialize, hwidget, hlabel, htemplate]

theorem Stack.deserialize_serialize {stack : Stack isUri (Element isUri)}
    (h : ∀ child ∈ stack.children, ReadsBack child) :
    Stack.deserialize Element.deserialize stack.serialize = some stack := by
  obtain ⟨metaValue, children⟩ := stack
  have hchildren : deserializeVec Element.deserialize (.array (serializeElements children)) =
      some children := by
    rw [serializeElements_eq]
    exact deserializeItems_map h
  unfold Stack.deserialize
  rw [Stack.serialize, structFields_meta metaValue (by simp) (by simp)]
  simp only [Option.bind_eq_bind, Option.bind_some, ElementMeta.ofFields_fields]
  simp [requiredField, ElementMeta.fields, lookup_cons, hchildren]

theorem GridCell.deserialize_serialize {cell : GridCell (Element isUri)}
    (h : ReadsBack cell.child) : GridCell.deserialize Element.deserialize cell.serialize =
      some cell := by
  obtain ⟨compactSpan, wideSpan, child⟩ := cell
  have hwide : deserializeOption GridSpan.deserialize
      (serializeOption GridSpan.serialize wideSpan) = some wideSpan :=
    deserializeOption_serialize (fun inner _ => inner.deserialize_serialize) fun inner hn => by
      cases hn
  have hchild : Element.deserialize child.serialize = some child := h
  unfold GridCell.deserialize
  rw [GridCell.serialize, structFields_record (by simp) (by simp)]
  simp [requiredField, defaultedField, lookup_cons, GridSpan.deserialize_serialize, hwide, hchild]

theorem Grid.deserialize_serialize {grid : Grid isUri (Element isUri)}
    (h : ∀ cell ∈ grid.cells, ReadsBack cell.child) :
    Grid.deserialize Element.deserialize grid.serialize = some grid := by
  obtain ⟨metaValue, cells⟩ := grid
  have hcells : deserializeVec (GridCell.deserialize Element.deserialize)
      (.array (serializeCells cells)) = some cells := by
    rw [serializeCells_eq]
    exact deserializeItems_map fun cell hcell => GridCell.deserialize_serialize (h cell hcell)
  unfold Grid.deserialize
  rw [Grid.serialize, structFields_meta metaValue (by simp) (by simp)]
  simp only [Option.bind_eq_bind, Option.bind_some, ElementMeta.ofFields_fields]
  simp [requiredField, ElementMeta.fields, lookup_cons, hcells]

theorem Group.deserialize_serialize {group : Group isUri (Element isUri)}
    (h : ReadsBack group.child) :
    Group.deserialize Element.deserialize group.serialize = some group := by
  obtain ⟨metaValue, title, child⟩ := group
  have hchild : Element.deserialize child.serialize = some child := h
  unfold Group.deserialize
  rw [Group.serialize, structFields_meta metaValue (by simp) (by simp)]
  simp only [Option.bind_eq_bind, Option.bind_some, ElementMeta.ofFields_fields]
  simp [requiredField, ElementMeta.fields, lookup_cons, TextReference.deserialize_serialize,
    hchild]

theorem TabPanel.deserialize_serialize {panel : TabPanel (Element isUri)}
    (h : ReadsBack panel.child) : TabPanel.deserialize Element.deserialize panel.serialize =
      some panel := by
  obtain ⟨title, child⟩ := panel
  have hchild : Element.deserialize child.serialize = some child := h
  unfold TabPanel.deserialize
  rw [TabPanel.serialize, structFields_record (by simp) (by simp)]
  simp [requiredField, lookup_cons, TextReference.deserialize_serialize, hchild]

theorem Tabs.deserialize_serialize {tabs : Tabs isUri (Element isUri)}
    (h : ∀ panel ∈ tabs.panels, ReadsBack panel.child) :
    Tabs.deserialize Element.deserialize tabs.serialize = some tabs := by
  obtain ⟨metaValue, panels⟩ := tabs
  have hpanels : deserializeVec (TabPanel.deserialize Element.deserialize)
      (.array (serializePanels panels)) = some panels := by
    rw [serializePanels_eq]
    exact deserializeItems_map fun panel hpanel => TabPanel.deserialize_serialize (h panel hpanel)
  unfold Tabs.deserialize
  rw [Tabs.serialize, structFields_meta metaValue (by simp) (by simp)]
  simp only [Option.bind_eq_bind, Option.bind_some, ElementMeta.ofFields_fields]
  simp [requiredField, ElementMeta.fields, lookup_cons, hpanels]

theorem Element.deserialize_adjacent (tag : String) (content : Value) :
    (Element.deserialize (adjacent tag content) : Option (Element isUri)) =
      match tag with
      | "control" => (Control.deserialize Element.deserialize content).map .control
      | "auto" => (Auto.deserialize content).map .auto
      | "stack" => (Stack.deserialize Element.deserialize content).map .stack
      | "grid" => (Grid.deserialize Element.deserialize content).map .grid
      | "group" => (Group.deserialize Element.deserialize content).map .group
      | "tabs" => (Tabs.deserialize Element.deserialize content).map .tabs
      | "text" => (Text.deserialize content).map .text
      | _ => none := by
  rw [Element.deserialize_eq, Element.deserializeWith, adjacentlyTagged_adjacent]
  rfl

theorem Element.deserialize_serialize (element : Element isUri) :
    Element.deserialize element.serialize = some element := by
  induction element using Element.induct with
  | control control h =>
    rw [Element.serialize, Element.deserialize_adjacent]
    exact congrArg (Option.map Element.control) (Control.deserialize_serialize h)
  | auto auto =>
    rw [Element.serialize, Element.deserialize_adjacent]
    exact congrArg (Option.map Element.auto) auto.deserialize_serialize
  | stack stack h =>
    rw [Element.serialize, Element.deserialize_adjacent]
    exact congrArg (Option.map Element.stack) (Stack.deserialize_serialize h)
  | grid grid h =>
    rw [Element.serialize, Element.deserialize_adjacent]
    exact congrArg (Option.map Element.grid) (Grid.deserialize_serialize h)
  | group group h =>
    rw [Element.serialize, Element.deserialize_adjacent]
    exact congrArg (Option.map Element.group) (Group.deserialize_serialize h)
  | tabs tabs h =>
    rw [Element.serialize, Element.deserialize_adjacent]
    exact congrArg (Option.map Element.tabs) (Tabs.deserialize_serialize h)
  | text text =>
    rw [Element.serialize, Element.deserialize_adjacent]
    exact congrArg (Option.map Element.text) text.deserialize_serialize

theorem UiSchema.deserialize_serialize (schema : UiSchema isUri) :
    UiSchema.deserialize schema.serialize = some schema := by
  have hextensions : deserializeVec ExtensionNamespace.deserialize
      (.array (schema.requiredExtensions.map (.string ·.text))) = some schema.requiredExtensions :=
    deserializeItems_map fun key _ => key.deserialize_serialize
  have hversion := schema.version.deserialize_serialize
  have hroot := schema.root.deserialize_serialize
  unfold UiSchema.deserialize UiSchema.serialize
  rw [structFields_record (by simp) (by simp)]
  simp only [Option.bind_eq_bind, Option.bind_some]
  simp only [requiredField, defaultedField, lookup_cons]
  simp only [String.reduceEq, if_false, if_true, Option.bind_some]
  rw [hversion, Option.bind_some, hextensions, Option.bind_some, hroot]
  rfl

/-- A UI schema is read back from its JSON, and JSON that reads as a UI schema reads as the same
one after it is written again. -/
theorem ui_schema_round_trip (isUri : String → Bool) :
    (∀ schema : UiSchema isUri, UiSchema.deserialize schema.serialize = some schema) ∧
    ∀ (value : Value) (schema : UiSchema isUri), UiSchema.deserialize value = some schema →
      UiSchema.deserialize schema.serialize = some schema :=
  ⟨UiSchema.deserialize_serialize, fun _ schema _ => schema.deserialize_serialize⟩

/-- `{"version": 1.0, "root": {"type": "group", "value": [null, {}, ["Name", null], ..]}}` -/
def greeting : Value :=
  .object [("root", .object [("type", .string "group"),
      ("value", .array [.null, .object [], .array [.string "Name", .null],
        .object [("type", .string "text"),
          ("value", .object [("content", .object [("fallback", .string "Hello")])])]])]),
    ("version", .number "1.0")]

theorem ui_schema_round_trip_greeting : ∃ schema : UiSchema fun _ => true,
    UiSchema.deserialize greeting = some schema ∧
      UiSchema.deserialize schema.serialize = some schema := by
  obtain ⟨schema, h⟩ : ∃ schema : UiSchema fun _ => true,
      UiSchema.deserialize greeting = some schema := ⟨_, rfl⟩
  exact ⟨schema, h, (ui_schema_round_trip fun _ => true).2 greeting schema h⟩

end Schemaform.Ui.V1
