import Schemaform.Compile.Authored
import Schemaform.Ui.V1

/-!
# Compile.UiSchema

What the compiler of definition nodes reads of a UI schema: elements, ids, extensions and bindings.
Labels, help, widgets, titles, texts and spans go to the nodes unread.

* `Element.authored`: the element without the rest.
* `Element.exists_authored`: every element with checked extensions is one of a UI schema.
-/

namespace Schemaform.Ui

variable {isUri : String → Bool}

namespace V1

/-! ## Parts -/

def BindingOrigin.authored : BindingOrigin → Schemaform.BindingOrigin
  | .root => .root
  | .itemTemplate => .itemTemplate

def Binding.authored (binding : Binding) : Ui.Binding := ⟨binding.origin.authored, binding.pointer⟩

def TextReference.authored (reference : TextReference) : Ui.TextReference :=
  ⟨reference.fallback, reference.key⟩

def ElementMeta.authored (metaValue : ElementMeta isUri) : Ui.ElementMeta :=
  ⟨metaValue.id, metaValue.extensions.entries⟩

def PropertyPosition.authored : PropertyPosition → Ui.PropertyPosition
  | .property name => .property name
  | .remaining => .remaining

def PropertySelection.authored (selection : PropertySelection) : Ui.PropertySelection :=
  ⟨selection.includeValue, selection.excludeValue,
    selection.orderValue.map PropertyPosition.authored⟩

def Auto.authored (auto : Auto isUri) : Ui.Auto :=
  ⟨auto.metaValue.authored, auto.binding.authored, auto.properties.authored⟩

/-! ## Elements -/

mutual

def Element.authored : Element isUri → Ui.Element
  | .control control => Control.authored control
  | .auto auto => .auto auto.authored
  | .stack ⟨metaValue, children⟩ => .stack metaValue.authored (authoredElements children)
  | .grid ⟨metaValue, cells⟩ => .grid metaValue.authored (authoredCells cells)
  | .group ⟨metaValue, _, child⟩ => .group metaValue.authored child.authored
  | .tabs ⟨metaValue, panels⟩ => .tabs metaValue.authored (authoredPanels panels)
  | .text text => .text text.metaValue.authored

def Control.authored : Control isUri (Element isUri) → Ui.Element
  | ⟨metaValue, binding, _, _, _, itemTemplate, itemLabel⟩ =>
    .control ⟨metaValue.authored, binding.authored, itemLabel.map TextReference.authored⟩
      (authoredTemplate itemTemplate)

def authoredTemplate : Option (Element isUri) → Option Ui.Element
  | none => none
  | some template => some template.authored

def authoredElements : List (Element isUri) → List Ui.Element
  | [] => []
  | child :: children => child.authored :: authoredElements children

def authoredCells : List (GridCell (Element isUri)) → List Ui.Element
  | [] => []
  | ⟨_, _, child⟩ :: cells => child.authored :: authoredCells cells

def authoredPanels : List (TabPanel (Element isUri)) → List Ui.Element
  | [] => []
  | ⟨_, child⟩ :: panels => child.authored :: authoredPanels panels

end

theorem authoredCells_map (span : GridSpan) (children : List (Element isUri)) :
    authoredCells (children.map fun child => ⟨span, none, child⟩) = authoredElements children := by
  induction children with
  | nil => rfl
  | cons child children ih => exact congrArg (child.authored :: ·) ih

theorem authoredPanels_map (title : TextReference) (children : List (Element isUri)) :
    authoredPanels (children.map fun child => ⟨title, child⟩) = authoredElements children := by
  induction children with
  | nil => rfl
  | cons child children ih => exact congrArg (child.authored :: ·) ih

end V1

/-! ## Every element -/

/-- Extensions as a UI schema holds them. -/
structure ElementMeta.Checked (isUri : String → Bool) (metaValue : ElementMeta) : Prop where
  sorted : SortedMap.Sorted metaValue.extensionsValue
  uris : ∀ entry ∈ metaValue.extensionsValue, isUri entry.1 = true

namespace Element

mutual

def Checked (isUri : String → Bool) : Element → Prop
  | .control shown itemTemplate =>
    shown.metaValue.Checked isUri ∧ templateChecked isUri itemTemplate
  | .auto shown => shown.metaValue.Checked isUri
  | .stack metaValue children => metaValue.Checked isUri ∧ allChecked isUri children
  | .grid metaValue cells => metaValue.Checked isUri ∧ allChecked isUri cells
  | .group metaValue child => metaValue.Checked isUri ∧ Checked isUri child
  | .tabs metaValue panels => metaValue.Checked isUri ∧ allChecked isUri panels
  | .text metaValue => metaValue.Checked isUri

def templateChecked (isUri : String → Bool) : Option Element → Prop
  | none => True
  | some template => Checked isUri template

def allChecked (isUri : String → Bool) : List Element → Prop
  | [] => True
  | element :: elements => Checked isUri element ∧ allChecked isUri elements

end

end Element

theorem ElementMeta.exists_authored {metaValue : ElementMeta} (h : metaValue.Checked isUri) :
    ∃ written : V1.ElementMeta isUri, written.authored = metaValue :=
  ⟨⟨metaValue.idValue, metaValue.extensionsValue, h.sorted, h.uris⟩, rfl⟩

theorem bindingOrigin_surjective : Function.Surjective V1.BindingOrigin.authored
  | .root => ⟨.root, rfl⟩
  | .itemTemplate => ⟨.itemTemplate, rfl⟩

theorem binding_surjective : Function.Surjective V1.Binding.authored := by
  rintro ⟨origin, pointer⟩
  obtain ⟨written, rfl⟩ := bindingOrigin_surjective origin
  exact ⟨⟨written, pointer⟩, rfl⟩

theorem textReference_surjective : Function.Surjective V1.TextReference.authored :=
  fun reference => ⟨⟨reference.fallback, reference.key⟩, rfl⟩

theorem itemLabel_surjective : Function.Surjective (Option.map V1.TextReference.authored)
  | none => ⟨none, rfl⟩
  | some reference => by
    obtain ⟨written, rfl⟩ := textReference_surjective reference
    exact ⟨some written, rfl⟩

theorem propertyPosition_surjective : Function.Surjective V1.PropertyPosition.authored
  | .property name => ⟨.property name, rfl⟩
  | .remaining => ⟨.remaining, rfl⟩

theorem propertySelection_surjective : Function.Surjective V1.PropertySelection.authored := by
  rintro ⟨includeValue, excludeValue, orderValue⟩
  obtain ⟨written, rfl⟩ := List.map_surjective_iff.mpr propertyPosition_surjective orderValue
  exact ⟨⟨includeValue, excludeValue, written⟩, rfl⟩

namespace Element

/-- A span and a text for the parts that are not read. -/
def fullSpan : V1.GridSpan := ⟨12, by decide⟩

def noText : V1.TextReference := ⟨"", none⟩

mutual

theorem exists_authored : ∀ (element : Element), element.Checked isUri →
    ∃ written : V1.Element isUri, written.authored = element
  | .control ⟨metaValue, binding, itemLabel⟩ itemTemplate, h => by
    obtain ⟨writtenMeta, rfl⟩ := ElementMeta.exists_authored h.1
    obtain ⟨writtenBinding, rfl⟩ := binding_surjective binding
    obtain ⟨writtenLabel, rfl⟩ := itemLabel_surjective itemLabel
    obtain ⟨writtenTemplate, rfl⟩ := exists_authoredTemplate itemTemplate h.2
    exact ⟨.control ⟨writtenMeta, writtenBinding, .inherit, .inherit, none, writtenTemplate,
      writtenLabel⟩, rfl⟩
  | .auto ⟨metaValue, binding, properties⟩, h => by
    obtain ⟨writtenMeta, rfl⟩ := ElementMeta.exists_authored h
    obtain ⟨writtenBinding, rfl⟩ := binding_surjective binding
    obtain ⟨writtenProperties, rfl⟩ := propertySelection_surjective properties
    exact ⟨.auto ⟨writtenMeta, writtenBinding, writtenProperties⟩, rfl⟩
  | .stack metaValue children, h => by
    obtain ⟨writtenMeta, rfl⟩ := ElementMeta.exists_authored h.1
    obtain ⟨written, rfl⟩ := exists_authoredElements children h.2
    exact ⟨.stack ⟨writtenMeta, written⟩, rfl⟩
  | .grid metaValue cells, h => by
    obtain ⟨writtenMeta, rfl⟩ := ElementMeta.exists_authored h.1
    obtain ⟨written, rfl⟩ := exists_authoredElements cells h.2
    refine ⟨.grid ⟨writtenMeta, written.map fun child => ⟨fullSpan, none, child⟩⟩, ?_⟩
    exact congrArg (Element.grid _) (V1.authoredCells_map fullSpan written)
  | .group metaValue child, h => by
    obtain ⟨writtenMeta, rfl⟩ := ElementMeta.exists_authored h.1
    obtain ⟨written, rfl⟩ := exists_authored child h.2
    exact ⟨.group ⟨writtenMeta, noText, written⟩, rfl⟩
  | .tabs metaValue panels, h => by
    obtain ⟨writtenMeta, rfl⟩ := ElementMeta.exists_authored h.1
    obtain ⟨written, rfl⟩ := exists_authoredElements panels h.2
    refine ⟨.tabs ⟨writtenMeta, written.map fun child => ⟨noText, child⟩⟩, ?_⟩
    exact congrArg (Element.tabs _) (V1.authoredPanels_map noText written)
  | .text metaValue, h => by
    obtain ⟨writtenMeta, rfl⟩ := ElementMeta.exists_authored h
    exact ⟨.text ⟨writtenMeta, noText⟩, rfl⟩

theorem exists_authoredTemplate : ∀ (itemTemplate : Option Element),
    templateChecked isUri itemTemplate →
      ∃ written : Option (V1.Element isUri), V1.authoredTemplate written = itemTemplate
  | none, _ => ⟨none, rfl⟩
  | some template, h => by
    obtain ⟨written, rfl⟩ := exists_authored template h
    exact ⟨some written, rfl⟩

theorem exists_authoredElements : ∀ (elements : List Element), allChecked isUri elements →
    ∃ written : List (V1.Element isUri), V1.authoredElements written = elements
  | [], _ => ⟨[], rfl⟩
  | element :: elements, h => by
    obtain ⟨first, rfl⟩ := exists_authored element h.1
    obtain ⟨rest, rfl⟩ := exists_authoredElements elements h.2
    exact ⟨first :: rest, rfl⟩

end

end Element

end Schemaform.Ui
