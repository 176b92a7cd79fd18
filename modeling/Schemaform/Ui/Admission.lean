import Schemaform.Source.Bounds
import Schemaform.Ui.Metrics

/-!
# Ui.Admission

The limits of a UI schema that was built, against the limits of the same schema read.

* `Shape.differs`: what the struct of a number needs beside the number it stands for.
* `Alike`: documents of one size; `Element.shape_alike`: a shape spells what is written.
* `typed_limits_exact`.
-/

namespace Schemaform.Ui

open Source

/-! ## What a number adds -/

/-- Room for the struct of a number at a depth, beside the number itself. -/
def NumberFits (limits : InputLimits) (depth : Nat) : Prop :=
  depth < limits.depth ∧ 1 ≤ limits.collectionLength ∧ numberToken.utf8ByteSize ≤ limits.scalarBytes

namespace Shape

variable {limits : InputLimits}

theorem json_seq (items : List Shape) : (Shape.seq items).json = .array (items.map json) := by
  rw [json, toValue, toItems_eq]
  rfl

theorem json_map (announced : Bool) (entries : List (String × Shape)) :
    (Shape.map announced entries).json =
      .object (entries.map fun entry => (entry.1, entry.2.json)) := by
  rw [json, toValue, toMembers_eq]
  rfl

theorem json_struct (fields : List (String × Shape)) :
    (Shape.struct fields).json = .object (fields.map fun field => (field.1, field.2.json)) := by
  rw [json, toValue, toMembers_eq]
  rfl

theorem itemNumberDepths_eq (depth : Nat) (items : List Shape) :
    itemNumberDepths depth items = items.flatMap (numberDepths depth) := by
  induction items with
  | nil => rfl
  | cons item items ih => rw [itemNumberDepths, ih, List.flatMap_cons]

theorem entryNumberDepths_eq (depth : Nat) (entries : List (String × Shape)) :
    entryNumberDepths depth entries = entries.flatMap fun entry => numberDepths depth entry.2 := by
  induction entries with
  | nil => rfl
  | cons entry entries ih => rw [entryNumberDepths, ih, List.flatMap_cons]

/-- Only numbers make a difference. -/
def Differs (limits : InputLimits) (depth : Nat) (shape : Shape) : Prop :=
  (Fits limits depth shape.document ↔
    Fits limits depth shape.json ∧ ∀ d ∈ shape.numberDepths depth, NumberFits limits d) ∧
  shape.document.nodeCount = shape.json.nodeCount + (shape.numberDepths depth).length ∧
  shape.document.memberCount = shape.json.memberCount + (shape.numberDepths depth).length

theorem sum_differs {α : Type} {items : List α} {f g h : α → Nat}
    (hitems : ∀ item ∈ items, f item = g item + h item) :
    (items.map f).sum = (items.map g).sum + (items.map h).sum := by
  rw [← List.sum_map_add]
  exact congrArg List.sum (List.map_congr_left hitems)

theorem differs_seq {items : List Shape} {depth : Nat}
    (ih : ∀ item ∈ items, Differs limits (depth + 1) item) : Differs limits depth (.seq items) := by
  unfold Differs
  rw [document_seq, json_seq, numberDepths, itemNumberDepths_eq, List.length_flatMap]
  refine ⟨?_, ?_, ?_⟩
  · simp only [fits_array, List.length_map, List.forall_mem_map, List.mem_flatMap]
    constructor
    · rintro ⟨hopen, hall⟩
      refine ⟨⟨hopen, fun item hitem => (((ih item hitem).1.mp (hall item hitem)).1)⟩, ?_⟩
      rintro d ⟨item, hitem, hd⟩
      exact ((ih item hitem).1.mp (hall item hitem)).2 d hd
    · rintro ⟨⟨hopen, hall⟩, hnumbers⟩
      exact ⟨hopen, fun item hitem =>
        (ih item hitem).1.mpr ⟨hall item hitem, fun d hd => hnumbers d ⟨item, hitem, hd⟩⟩⟩
  · rw [Value.nodeCount_array, Value.nodeCount_array, List.map_map, List.map_map, Nat.add_assoc]
    exact congrArg (1 + ·) (sum_differs fun item hitem => (ih item hitem).2.1)
  · rw [Value.memberCount_array, Value.memberCount_array, List.map_map, List.map_map,
      Nat.add_assoc]
    exact congrArg (0 + ·) (sum_differs fun item hitem => (ih item hitem).2.2)

theorem differs_struct {fields : List (String × Shape)} {depth : Nat}
    (ih : ∀ field ∈ fields, Differs limits (depth + 1) field.2) :
    Differs limits depth (.struct fields) := by
  unfold Differs
  rw [document_struct, json_struct, numberDepths, entryNumberDepths_eq, List.length_flatMap]
  refine ⟨?_, ?_, ?_⟩
  · simp only [fits_object, List.length_map, List.forall_mem_map, List.mem_flatMap]
    constructor
    · rintro ⟨hopen, hall⟩
      refine ⟨⟨hopen, fun field hfield =>
        ⟨(hall field hfield).1, ((ih field hfield).1.mp (hall field hfield).2).1⟩⟩, ?_⟩
      rintro d ⟨field, hfield, hd⟩
      exact ((ih field hfield).1.mp (hall field hfield).2).2 d hd
    · rintro ⟨⟨hopen, hall⟩, hnumbers⟩
      exact ⟨hopen, fun field hfield => ⟨(hall field hfield).1, (ih field hfield).1.mpr
        ⟨(hall field hfield).2, fun d hd => hnumbers d ⟨field, hfield, hd⟩⟩⟩⟩
  · rw [Value.nodeCount_object, Value.nodeCount_object, List.map_map, List.map_map, Nat.add_assoc]
    exact congrArg (1 + ·) (sum_differs fun field hfield => (ih field hfield).2.1)
  · rw [Value.memberCount_object, Value.memberCount_object, List.map_map, List.map_map,
      List.length_map, List.length_map, Nat.add_assoc]
    exact congrArg (fields.length + ·) (sum_differs fun field hfield => (ih field hfield).2.2)

theorem differs_number (literal : String) (depth : Nat) :
    Differs limits depth (.number literal) := by
  refine ⟨?_, rfl, rfl⟩
  show Fits limits depth (.object [(numberToken, .string literal)]) ↔
    Fits limits depth (.number literal) ∧ ∀ d ∈ [depth], NumberFits limits d
  rw [fits_object, List.forall_mem_singleton, List.forall_mem_singleton, List.length_singleton]
  simp only [Fits, Enters, NumberFits, Value.scalarBytes]
  constructor
  · rintro ⟨⟨hdepth, hlength⟩, htoken, hbelow, hliteral⟩
    exact ⟨⟨hdepth, hliteral⟩, by omega, hlength, htoken⟩
  · rintro ⟨⟨hdepth, hliteral⟩, hbelow, hlength, htoken⟩
    exact ⟨⟨hdepth, hlength⟩, htoken, by omega, hliteral⟩

theorem differs (shape : Shape) : ∀ depth : Nat, Differs limits depth shape := by
  induction shape using Shape.induct with
  | some value ih => exact ih
  | newtypeVariant variant value ih =>
    intro depth
    have hstruct : Differs limits depth (.struct [(variant, value)]) :=
      differs_struct (List.forall_mem_singleton.mpr (ih (depth + 1)))
    have hdepths : (Shape.struct [(variant, value)]).numberDepths depth =
        (Shape.newtypeVariant variant value).numberDepths depth := List.append_nil _
    unfold Differs at hstruct ⊢
    rw [hdepths] at hstruct
    exact hstruct
  | seq items ih => exact fun depth => differs_seq fun item hitem => ih item hitem (depth + 1)
  | map announced entries ih =>
    exact fun depth => differs_struct fun entry hentry => ih entry hentry (depth + 1)
  | struct fields ih =>
    exact fun depth => differs_struct fun field hfield => ih field hfield (depth + 1)
  | number literal => exact differs_number literal
  | _ =>
    intro depth
    refine ⟨⟨fun h => ⟨h, fun d hd => absurd hd List.not_mem_nil⟩, fun h => h.1⟩, rfl, rfl⟩

end Shape

/-! ## Documents of one size -/

def Alike (v w : Value) : Prop := NoLarger v w ∧ NoLarger w v

theorem Alike.refl (v : Value) : Alike v v := ⟨NoLarger.refl v, NoLarger.refl v⟩

theorem alike_array {items items' : List Value} (h : List.Forall₂ Alike items items') :
    Alike (.array items) (.array items') :=
  ⟨noLarger_items (h.imp fun _ _ hvw => hvw.1).flip, noLarger_items (h.imp fun _ _ hvw => hvw.2)⟩

theorem alike_map {α : Type} {f g : α → Value} {items : List α}
    (h : ∀ item ∈ items, Alike (f item) (g item)) :
    Alike (.array (items.map f)) (.array (items.map g)) :=
  alike_array (List.forall₂_map_left_iff.mpr (List.forall₂_map_right_iff.mpr
    (List.forall₂_same.mpr h)))

/-- A record is sorted, which changes nothing about its size. -/
theorem alike_record {members fields : List (String × Value)}
    (hnodup : (fields.map Prod.fst).Nodup)
    (h : List.Forall₂ (fun d e => d.1 = e.1 ∧ Alike d.2 e.2) members fields) :
    Alike (.object members) (record fields) := by
  have hperm := SortedMap.ofEntries_perm hnodup
  constructor
  · refine noLarger_trans ?_ (noLarger_object hperm.symm.subperm)
    exact noLarger_members (h.imp fun _ _ hde => ⟨hde.1.symm, hde.2.1⟩).flip
  · refine noLarger_trans (noLarger_object hperm.subperm) ?_
    exact noLarger_members (h.imp fun _ _ hde => ⟨hde.1, hde.2.2⟩)

end Schemaform.Ui

namespace Schemaform.Value

open Ui

theorem memberShapes_json {members : List (String × Value)}
    (h : ∀ e ∈ members, e.2.toShape.json = e.2) (announced : Bool) :
    (Shape.map announced (memberShapes members)).json = .object members := by
  rw [Shape.json_map]
  refine congrArg Value.object ?_
  induction members with
  | nil => rfl
  | cons e members ih =>
    obtain ⟨hhead, hrest⟩ := List.forall_mem_cons.mp h
    rw [memberShapes, List.map_cons, ih hrest, hhead]

theorem itemShapes_json {items : List Value} (h : ∀ v ∈ items, v.toShape.json = v) :
    (itemShapes items).map Shape.json = items := by
  induction items with
  | nil => rfl
  | cons v items ih =>
    obtain ⟨hhead, hrest⟩ := List.forall_mem_cons.mp h
    rw [itemShapes, List.map_cons, ih hrest, hhead]

theorem toShape_json (v : Value) : v.toShape.json = v := by
  induction v using Value.induct with
  | array items ih => rw [toShape, Shape.json_seq, itemShapes_json ih]
  | object members ih => rw [toShape, memberShapes_json ih]
  | _ => rfl

end Schemaform.Value

namespace Schemaform.Ui

open Source

theorem optionShape_alike {α : Type} {shape : α → Shape} {serialize : α → Value} {value : Option α}
    (h : ∀ inner ∈ value, Alike (shape inner).json (serialize inner)) :
    Alike (optionShape shape value).json (serializeOption serialize value) := by
  cases value with
  | none => exact Alike.refl _
  | some inner => exact h inner rfl

theorem adjacentShape_alike (tag : String) {content : Shape} {value : Value}
    (h : Alike content.json value) :
    Alike (adjacentShape tag content).json (adjacent tag value) :=
  alike_record (by simp) (.cons ⟨rfl, Alike.refl _⟩ (.cons ⟨rfl, h⟩ .nil))

theorem newtypeVariant_alike (name : String) {content : Shape} {value : Value}
    (h : Alike content.json value) :
    Alike (Shape.newtypeVariant name content).json (newtypeVariant name value) := by
  have hrecord : Alike (.object [(name, content.json)]) (record [(name, value)]) :=
    alike_record (List.nodup_singleton name) (.cons ⟨rfl, h⟩ .nil)
  exact hrecord

theorem seq_alike {α : Type} {shape : α → Shape} {serialize : α → Value} {items : List α}
    (h : ∀ item ∈ items, Alike (shape item).json (serialize item)) :
    Alike (Shape.seq (items.map shape)).json (.array (items.map serialize)) := by
  rw [Shape.json_seq, List.map_map]
  exact alike_map h

namespace V1

variable {isUri : String → Bool}

theorem optionString_alike (text : Option String) :
    Alike (optionShape Shape.str text).json (serializeOption Value.string text) :=
  optionShape_alike fun _ _ => Alike.refl _

theorem Binding.shape_alike (binding : Binding) : Alike binding.shape.json binding.serialize := by
  refine alike_record (by simp) (.cons ⟨rfl, ?_⟩ (.cons ⟨rfl, Alike.refl _⟩ .nil))
  cases binding.origin <;> exact Alike.refl _

theorem TextReference.shape_alike (reference : TextReference) :
    Alike reference.shape.json reference.serialize :=
  alike_record (by simp) (.cons ⟨rfl, Alike.refl _⟩ (.cons ⟨rfl, optionString_alike _⟩ .nil))

theorem TextSetting.shape_alike (setting : TextSetting) :
    Alike setting.shape.json setting.serialize := by
  cases setting with
  | value reference => exact newtypeVariant_alike "value" reference.shape_alike
  | _ => exact Alike.refl _

theorem PropertyPosition.shape_alike (position : PropertyPosition) :
    Alike position.shape.json position.serialize := by
  cases position with
  | property name => exact newtypeVariant_alike "property" (Alike.refl _)
  | remaining => exact Alike.refl _

theorem PropertySelection.shape_alike (selection : PropertySelection) :
    Alike selection.shape.json selection.serialize :=
  alike_record (by simp) (.cons ⟨rfl, seq_alike fun _ _ => Alike.refl _⟩
    (.cons ⟨rfl, seq_alike fun _ _ => Alike.refl _⟩
      (.cons ⟨rfl, seq_alike fun position _ => position.shape_alike⟩ .nil)))

/-- The flattened fields before an element's own. -/
theorem alike_meta (metaValue : ElementMeta isUri) {entries : List (String × Shape)}
    {fields : List (String × Value)}
    (hnodup : ("id" :: "extensions" :: fields.map Prod.fst).Nodup)
    (h : List.Forall₂ (fun d e => d.1 = e.1 ∧ Alike d.2.json e.2) entries fields) :
    Alike (Shape.map false (metaValue.entries ++ entries)).json
      (record (metaValue.fields ++ fields)) := by
  have hextensions : (Shape.map true
      (Value.memberShapes metaValue.extensions.entries)).json =
        .object metaValue.extensions.entries :=
    Value.memberShapes_json (fun e _ => e.2.toShape_json) true
  rw [Shape.json_map]
  refine alike_record hnodup (.cons ⟨rfl, optionString_alike _⟩ (.cons ⟨rfl, ?_⟩ ?_))
  · show Alike (Shape.map true _).json _
    rw [hextensions]
    exact Alike.refl _
  · exact List.forall₂_map_left_iff.mpr h

theorem Control.shape_alike {control : Control isUri (Element isUri)}
    (h : ∀ child ∈ control.itemTemplate, Alike child.shape.json child.serialize) :
    Alike control.shape.json control.serialize := by
  obtain ⟨metaValue, binding, label, help, widget, itemTemplate, itemLabel⟩ := control
  have htemplate : Alike (templateShape itemTemplate).json (serializeTemplate itemTemplate) := by
    cases itemTemplate with
    | none => exact Alike.refl _
    | some template =>
      rw [templateShape, serializeTemplate]
      exact h template rfl
  rw [Control.shape, Control.serialize]
  exact alike_meta metaValue (by simp) (.cons ⟨rfl, binding.shape_alike⟩
    (.cons ⟨rfl, label.shape_alike⟩ (.cons ⟨rfl, help.shape_alike⟩
      (.cons ⟨rfl, optionShape_alike fun _ _ => Alike.refl _⟩ (.cons ⟨rfl, htemplate⟩
        (.cons ⟨rfl, optionShape_alike fun reference _ => reference.shape_alike⟩ .nil))))))

theorem Auto.shape_alike (auto : Auto isUri) : Alike auto.shape.json auto.serialize :=
  alike_meta auto.metaValue (by simp) (.cons ⟨rfl, auto.binding.shape_alike⟩
    (.cons ⟨rfl, auto.properties.shape_alike⟩ .nil))

theorem Stack.shape_alike {stack : Stack isUri (Element isUri)}
    (h : ∀ child ∈ stack.children, Alike child.shape.json child.serialize) :
    Alike stack.shape.json stack.serialize := by
  obtain ⟨metaValue, children⟩ := stack
  rw [Stack.shape, Stack.serialize, elementShapes_eq, serializeElements_eq]
  exact alike_meta metaValue (by simp) (.cons ⟨rfl, seq_alike h⟩ .nil)

theorem GridCell.shape_alike {cell : GridCell (Element isUri)}
    (h : Alike cell.child.shape.json cell.child.serialize) :
    Alike cell.shape.json cell.serialize := by
  obtain ⟨compactSpan, wideSpan, child⟩ := cell
  rw [GridCell.shape, GridCell.serialize]
  exact alike_record (by simp) (.cons ⟨rfl, Alike.refl _⟩
    (.cons ⟨rfl, optionShape_alike fun _ _ => Alike.refl _⟩ (.cons ⟨rfl, h⟩ .nil)))

theorem Grid.shape_alike {grid : Grid isUri (Element isUri)}
    (h : ∀ cell ∈ grid.cells, Alike cell.child.shape.json cell.child.serialize) :
    Alike grid.shape.json grid.serialize := by
  obtain ⟨metaValue, cells⟩ := grid
  rw [Grid.shape, Grid.serialize, cellShapes_eq, serializeCells_eq]
  exact alike_meta metaValue (by simp)
    (.cons ⟨rfl, seq_alike fun cell hcell => GridCell.shape_alike (h cell hcell)⟩ .nil)

theorem Group.shape_alike {group : Group isUri (Element isUri)}
    (h : Alike group.child.shape.json group.child.serialize) :
    Alike group.shape.json group.serialize := by
  obtain ⟨metaValue, title, child⟩ := group
  rw [Group.shape, Group.serialize]
  exact alike_meta metaValue (by simp) (.cons ⟨rfl, title.shape_alike⟩ (.cons ⟨rfl, h⟩ .nil))

theorem TabPanel.shape_alike {panel : TabPanel (Element isUri)}
    (h : Alike panel.child.shape.json panel.child.serialize) :
    Alike panel.shape.json panel.serialize := by
  obtain ⟨title, child⟩ := panel
  rw [TabPanel.shape, TabPanel.serialize]
  exact alike_record (by simp) (.cons ⟨rfl, title.shape_alike⟩ (.cons ⟨rfl, h⟩ .nil))

theorem Tabs.shape_alike {tabs : Tabs isUri (Element isUri)}
    (h : ∀ panel ∈ tabs.panels, Alike panel.child.shape.json panel.child.serialize) :
    Alike tabs.shape.json tabs.serialize := by
  obtain ⟨metaValue, panels⟩ := tabs
  rw [Tabs.shape, Tabs.serialize, panelShapes_eq, serializePanels_eq]
  exact alike_meta metaValue (by simp)
    (.cons ⟨rfl, seq_alike fun panel hpanel => TabPanel.shape_alike (h panel hpanel)⟩ .nil)

theorem Element.shape_alike (element : Element isUri) :
    Alike element.shape.json element.serialize := by
  induction element using Element.induct with
  | control control h =>
    rw [Element.shape, Element.serialize]
    exact adjacentShape_alike "control" (Control.shape_alike h)
  | auto auto =>
    rw [Element.shape, Element.serialize]
    exact adjacentShape_alike "auto" auto.shape_alike
  | stack stack h =>
    rw [Element.shape, Element.serialize]
    exact adjacentShape_alike "stack" (Stack.shape_alike h)
  | grid grid h =>
    rw [Element.shape, Element.serialize]
    exact adjacentShape_alike "grid" (Grid.shape_alike h)
  | group group h =>
    rw [Element.shape, Element.serialize]
    exact adjacentShape_alike "group" (Group.shape_alike h)
  | tabs tabs h =>
    rw [Element.shape, Element.serialize]
    exact adjacentShape_alike "tabs" (Tabs.shape_alike h)
  | text text =>
    rw [Element.shape, Element.serialize]
    exact adjacentShape_alike "text"
      (alike_meta text.metaValue (by simp) (.cons ⟨rfl, text.content.shape_alike⟩ .nil))

theorem UiSchema.shape_alike (schema : UiSchema isUri) :
    Alike schema.shape.json schema.serialize := by
  refine alike_record (by simp) (.cons ⟨rfl, ?_⟩ (.cons ⟨rfl, seq_alike fun _ _ => Alike.refl _⟩
    (.cons ⟨rfl, schema.root.shape_alike⟩ .nil)))
  cases schema.version
  exact Alike.refl _

/-! ## The two checks -/

/-- Room for the struct of every number in an extension, beside the number. -/
structure UiSchema.NumbersFit (schema : UiSchema isUri) (limits : InputLimits) : Prop where
  each : ∀ depth ∈ schema.shape.numberDepths 0, NumberFits limits depth
  nodes : schema.serialize.nodeCount + (schema.shape.numberDepths 0).length ≤ limits.nodes
  members : schema.serialize.memberCount + (schema.shape.numberDepths 0).length ≤ limits.members

theorem UiSchema.checkSerializableInput_iff (schema : UiSchema isUri) (limits : InputLimits) :
    checkSerializableInput schema.shape limits = .ok () ↔
      Admitted limits schema.serialize ∧ schema.NumbersFit limits := by
  obtain ⟨hle, hge⟩ := schema.shape_alike
  obtain ⟨hfits, hnodes, hmembers⟩ : schema.shape.Differs limits 0 := schema.shape.differs 0
  have hnodes' := Nat.le_antisymm hle.nodes hge.nodes
  have hmembers' := Nat.le_antisymm hle.members hge.members
  rw [Ui.checkSerializableInput_iff]
  constructor
  · rintro ⟨hf, hn, hm⟩
    obtain ⟨hjson, hnumbers⟩ := hfits.mp hf
    exact ⟨⟨hge.fits _ _ hjson, by omega, by omega⟩, hnumbers, by omega, by omega⟩
  · rintro ⟨⟨hf, _, _⟩, hnumbers, hn, hm⟩
    exact ⟨hfits.mpr ⟨hle.fits _ _ hf, hnumbers⟩, by omega, by omega⟩

/-- A schema that was built is held to the limits of its document exactly if the document is over
them anyway or they leave room for the structs of its numbers. -/
theorem typed_limits_exact (schema : UiSchema isUri) (limits : InputLimits) :
    (checkSerializableInput schema.shape limits = .ok () ↔
      checkInputValue schema.serialize limits = .ok ()) ↔
    (Source.Within (tightest schema.serialize) limits → schema.NumbersFit limits) := by
  rw [schema.checkSerializableInput_iff, ← checkInputValue_iff_within, checkInputValue_iff]
  exact and_iff_left_iff_imp

/-- A text with the number 1 as its one extension: a document of twelve nodes. -/
def counted : UiSchema fun _ => true where
  version := .v1
  requiredExtensions := []
  root := .text ⟨⟨none, ExtensionMap.empty.insert ⟨"urn:count", rfl⟩ (.number "1")⟩, ⟨"Hello", none⟩⟩

/-- With room for twelve nodes it passes when read, and not when built. -/
theorem typed_limits_counted :
    ¬ ∀ (isUri : String → Bool) (schema : UiSchema isUri) (limits : InputLimits),
      checkSerializableInput schema.shape limits = .ok () ↔
        checkInputValue schema.serialize limits = .ok () := by
  intro h
  have hcounted := h _ counted ⟨128, 12, 65536, 16384, 1048576⟩
  have hread : checkInputValue counted.serialize ⟨128, 12, 65536, 16384, 1048576⟩ = .ok () := by
    decide +kernel
  have hbuilt : checkSerializableInput counted.shape ⟨128, 12, 65536, 16384, 1048576⟩ =
      .error ⟨"nodes", 12, 13, []⟩ := by
    decide +kernel
  rw [hbuilt, hread] at hcounted
  cases hcounted.mpr rfl

end V1

end Schemaform.Ui
