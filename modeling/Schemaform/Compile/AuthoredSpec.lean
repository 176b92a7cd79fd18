import Schemaform.Compile.AutoSpec

/-!
# Compile.AuthoredSpec

What an authored element becomes.

* `Ui.Element.isItemAuto`, `showsItem`, `wrapsItems`: how item templates show the item object.
* `Compiled`: the segment an element or a row of elements appends.
* `compileAuthoredElement_compiled`: every element, by induction.
-/

namespace Schemaform

open Ui

/-! ## Item objects in templates -/

namespace Ui.Element

/-- An `Auto` for the item itself that gets no layout node of its own. -/
def isItemAuto : Element → Bool
  | .auto shown => shown.binding.pointer.isEmpty && shown.metaValue.idValue.isNone &&
      shown.metaValue.extensionsValue.isEmpty
  | _ => false

mutual

/-- Somewhere an `Auto` for the item itself. -/
def showsItem : Element → Bool
  | .control _ _ => false
  | .auto shown => shown.binding.pointer.isEmpty
  | .stack _ children => anyShowsItem children
  | .grid _ cells => anyShowsItem cells
  | .group _ child => showsItem child
  | .tabs _ panels => anyShowsItem panels
  | .text _ => false

def anyShowsItem : List Element → Bool
  | [] => false
  | element :: elements => showsItem element || anyShowsItem elements

end

mutual

/-- No item template shows the item object below another node. -/
def showsItemsOnce : Element → Bool
  | .control _ template => templateShowsOnce template
  | .auto _ => true
  | .stack _ children => allShowItemsOnce children
  | .grid _ cells => allShowItemsOnce cells
  | .group _ child => showsItemsOnce child
  | .tabs _ panels => allShowItemsOnce panels
  | .text _ => true

def allShowItemsOnce : List Element → Bool
  | [] => true
  | element :: elements => showsItemsOnce element && allShowItemsOnce elements

def templateShowsOnce : Option Element → Bool
  | none => true
  | some template => template.isItemAuto || !template.showsItem

end

end Ui.Element

/-! ## Appended nodes -/

variable {generated : List GeneratedNode} {context : AuthoredBindingContext}
  {before middle after : CompileState} {added added' : List CompiledNode} {roots roots' : List Nat}

/-- The root, or the scope of an item template. -/
def AuthoredBindingContext.Scoped (context : AuthoredBindingContext) : Prop :=
  context = .root ∨ ∃ binding id, context = .itemTemplate binding id

theorem AuthoredBindingContext.Scoped.iff (h : context.Scoped) :
    context.owningArray = none ↔ context.owningArrayBinding = none := by
  rcases h with rfl | ⟨binding, id, rfl⟩
  · simp [AuthoredBindingContext.root]
  · simp [AuthoredBindingContext.itemTemplate]

/-- The items of the scope are objects. -/
def ItemObject (generated : List GeneratedNode) (context : AuthoredBindingContext) : Prop :=
  ∃ g ∈ generated, g.owningArrayBinding = context.owningArrayBinding ∧ g.binding = [] ∧
    g.kind = .autoGeneratedLayout

structure Compiled (generated : List GeneratedNode) (context : AuthoredBindingContext)
    (before : CompileState) (added : List CompiledNode) (roots : List Nat) (after : CompileState)
    (once shows : Bool) : Prop where
  appended : Appended context before added roots after
  inner : (innerPlaces (·.bindsValue) context.owningArray added).Nodup ↔ once = true
  item : context.owningArray ≠ none → ItemObject generated context →
    (some [] ∈ scopeBindings (·.bindsValue) context.owningArray added ↔ shows = true)
  object : context.owningArray ≠ none → shows = true → ItemObject generated context
  controls : (innerPlaces (·.isControl) context.owningArray added).Nodup
  contents : ∀ n ∈ added, Content generated context added n

theorem registerAuthoredId_ok {metaValue : ElementMeta} {valueLocation : String}
    {authoredId : Option String}
    (h : registerAuthoredId metaValue valueLocation before = .ok (authoredId, after)) :
    authoredId = metaValue.idValue ∧
      after = { before with authoredIds := authoredId.toList ++ before.authoredIds } ∧
      (before.authoredIds.Nodup → after.authoredIds.Nodup) := by
  unfold registerAuthoredId at h
  split at h
  · rename_i hnone
    obtain ⟨rfl, rfl⟩ := Prod.mk.inj (Except.ok.inj h)
    exact ⟨hnone.symm, rfl, fun hn => hn⟩
  · rename_i id hsome
    split at h
    · cases h
    · rename_i hfresh
      obtain ⟨rfl, rfl⟩ := Prod.mk.inj (Except.ok.inj h)
      exact ⟨hsome.symm, rfl, fun hn => List.nodup_cons.mpr ⟨hfresh, hn⟩⟩

/-- The node of a layout element. -/
def presentation (kind : DefinitionNodeKind) (authoredId : Option String)
    (context : AuthoredBindingContext) (children : List Nat) (state : CompileState) : CompiledNode :=
  { presentationNode kind children with
    authoredId, owningArray := context.owningArray, id := state.nodes.length }

theorem presentation_bindsValue {kind : DefinitionNodeKind} (hkind : kind ≠ .control)
    (authoredId : Option String) :
    (presentation kind authoredId context roots after).bindsValue = false := by
  simp [CompiledNode.bindsValue, presentation, presentationNode, hkind]

theorem Appended.present {metaValue : ElementMeta} {valueLocation : String}
    {authoredId : Option String}
    (hregister : registerAuthoredId metaValue valueLocation before = .ok (authoredId, middle))
    (h : Appended context middle added roots after) {kind : DefinitionNodeKind}
    (hkind : kind ≠ .control) {id : Nat} {final : CompileState}
    (hpush : pushPresentation kind authoredId context roots after = (id, final)) :
    Appended context before (added ++ [presentation kind authoredId context roots after])
      [(presentation kind authoredId context roots after).id] final := by
  obtain ⟨rfl, rfl⟩ := Prod.mk.inj hpush
  obtain ⟨_, rfl, hnodup⟩ := registerAuthoredId_ok hregister
  have hlength : after.nodes.length = before.nodes.length + added.length := by
    rw [h.nodes, List.length_append]
  constructor
  · rw [← List.append_assoc]
    exact congrArg (· ++ [_]) h.nodes
  · have hpushed : Segment context.owningArray before.nodes.length
        (added ++ [presentation kind authoredId context roots after])
        [before.nodes.length + added.length] :=
      h.segment.push hlength rfl rfl (by simp [presentation, presentationNode])
    show Segment _ _ _ [after.nodes.length]
    rw [hlength]
    exact hpushed
  · rw [scopeBindings_append, scopeBindings_singleton, presentation_bindsValue hkind,
      Bool.false_and, if_neg Bool.false_ne_true, List.append_nil]
    exact h.bindings
  · exact h.bindings_nodup
  · refine h.authoredIds.trans (List.Perm.of_eq ?_)
    rw [List.filterMap_append, List.append_assoc]
    cases authoredId <;> rfl
  · exact fun hn => h.authoredIds_nodup (hnodup hn)

namespace Compiled

variable {once once' shows shows' : Bool}

theorem nil : Compiled generated context before [] [] before true false where
  appended := .refl
  inner := by simp [innerPlaces]
  item _ _ := by simp [scopeBindings]
  object _ h := by cases h
  controls := List.nodup_nil
  contents := by simp

theorem trans (h : Compiled generated context before added roots middle once shows)
    (h' : Compiled generated context middle added' roots' after once' shows') :
    Compiled generated context before (added ++ added') (roots ++ roots') after
      (once && once') (shows || shows') where
  appended := h.appended.trans h'.appended
  inner := by
    have hlength : middle.nodes.length = before.nodes.length + added.length := by
      rw [h.appended.nodes, List.length_append]
    rw [h.appended.segment.innerPlaces_nodup_append (hlength ▸ h'.appended.segment), h.inner,
      h'.inner, Bool.and_eq_true]
  item hscope hobject := by
    rw [scopeBindings_append, List.mem_append, h.item hscope hobject, h'.item hscope hobject,
      Bool.or_eq_true]
  object hscope hshows := by
    rcases (Bool.or_eq_true _ _).mp hshows with hshows | hshows
    · exact h.object hscope hshows
    · exact h'.object hscope hshows
  controls := by
    have hlength : middle.nodes.length = before.nodes.length + added.length := by
      rw [h.appended.nodes, List.length_append]
    rw [h.appended.segment.innerPlaces_nodup_append (hlength ▸ h'.appended.segment)]
    exact ⟨h.controls, h'.controls⟩
  contents := content_append h.contents h'.contents

theorem present {metaValue : ElementMeta} {valueLocation : String} {authoredId : Option String}
    (hregister : registerAuthoredId metaValue valueLocation before = .ok (authoredId, middle))
    (h : Compiled generated context middle added roots after once shows)
    {kind : DefinitionNodeKind} (hkind : kind ≠ .control ∧ kind ≠ .unsupported) {id : Nat}
    {final : CompileState}
    (hpush : pushPresentation kind authoredId context roots after = (id, final)) :
    Compiled generated context before
      (added ++ [presentation kind authoredId context roots after])
      [(presentation kind authoredId context roots after).id] final once shows where
  appended := h.appended.present hregister hkind.1 hpush
  inner := by
    have howner : (presentation kind authoredId context roots after).owningArray =
        context.owningArray := rfl
    rw [innerPlaces_append, innerPlaces_singleton howner, List.append_nil, h.inner]
  item hscope hobject := by
    rw [scopeBindings_append, scopeBindings_singleton, presentation_bindsValue hkind.1,
      Bool.false_and, if_neg Bool.false_ne_true, List.append_nil]
    exact h.item hscope hobject
  object := h.object
  controls := by
    have howner : (presentation kind authoredId context roots after).owningArray =
        context.owningArray := rfl
    rw [innerPlaces_append, innerPlaces_singleton howner, List.append_nil]
    exact h.controls
  contents := by
    refine content_append h.contents fun n hn => ?_
    obtain rfl := List.mem_singleton.mp hn
    exact .layout kind hkind _ _ _ _

end Compiled

/-! ## Autos -/

/-- In an item template an element has one root. -/
def SingleRoot (context : AuthoredBindingContext) (added : List CompiledNode) (roots : List Nat)
    (isItem : Bool) : Prop :=
  context.owningArray ≠ none → ∃ n ∈ added, roots = [n.id] ∧
    (n.semanticKind = some .fixedObject ∧ n.binding = some [] ↔ isItem = true)

theorem SingleRoot.presentation {kind : DefinitionNodeKind} {authoredId : Option String}
    {isItem : Bool} (hitem : isItem = false) :
    SingleRoot context (added ++ [presentation kind authoredId context roots after])
      [(presentation kind authoredId context roots after).id] isItem := by
  intro _
  refine ⟨_, List.mem_append_right _ (List.mem_singleton_self _), rfl, ?_⟩
  rw [hitem]
  constructor
  · rintro ⟨hkind, _⟩
    cases hkind
  · intro hfalse
    cases hfalse

theorem wrapAutoMeta_compiled {valueLocation : String} {shown : Auto} {authoredId : Option String}
    (hregister : registerAuthoredId shown.metaValue valueLocation before = .ok (authoredId, middle))
    {state : CompileState} {children : List Nat} {shows : Bool}
    (h : Compiled generated context middle added children state true shows)
    (hsingle : SingleRoot context added children shown.binding.pointer.isEmpty)
    (hwrap : wrapAutoMeta shown authoredId context children state = (roots, after)) :
    ∃ added', Compiled generated context before added' roots after true shows ∧
      SingleRoot context added' roots (Element.auto shown).isItemAuto := by
  have hid := (registerAuthoredId_ok hregister).1
  unfold wrapAutoMeta at hwrap
  by_cases hplain : (authoredId.isNone && shown.metaValue.extensionsValue.isEmpty) = true
  · rw [if_pos hplain] at hwrap
    obtain ⟨rfl, rfl⟩ := Prod.mk.inj hwrap
    obtain ⟨hnone, hextensions⟩ := Bool.and_eq_true_iff.mp hplain
    obtain rfl := Option.isNone_iff_eq_none.mp hnone
    obtain rfl : middle = before := (registerAuthoredId_ok hregister).2.1
    refine ⟨added, h, ?_⟩
    rw [Element.isItemAuto, ← hid, hextensions, Option.isNone_none, Bool.and_true, Bool.and_true]
    exact hsingle
  · rw [if_neg hplain] at hwrap
    obtain ⟨rfl, rfl⟩ := Prod.mk.inj hwrap
    refine ⟨_, h.present hregister (by decide) rfl, .presentation ?_⟩
    rw [Element.isItemAuto, Bool.and_assoc, ← hid, Bool.eq_false_of_not_eq_true hplain,
      Bool.and_false]

section Auto

theorem root_region_compiled {region : GeneratedRegion}
    (hrooted : region.Rooted none) {errorLocation : String}
    (h : materializeGeneratedRegion region .root errorLocation before = .ok (roots, after))
    (shows : Bool) :
    ∃ added, Compiled region.generated .root before added roots after true shows := by
  have hscoped : AuthoredBindingContext.Scoped .root := .inl rfl
  obtain ⟨_, happended⟩ :=
    GeneratedRegion.materializeGeneratedRegion_appended hscoped.iff hrooted h
  refine ⟨_, happended, ?_, fun hne => absurd rfl hne, fun hne => absurd rfl hne,
    GeneratedRegion.innerPlaces_nodup hscoped.iff hrooted _,
    GeneratedRegion.nodes_content hscoped.iff hrooted⟩
  exact iff_of_true (GeneratedRegion.innerPlaces_nodup hscoped.iff hrooted _) rfl

variable (hf : GeneratedForest generated)
include hf

/-- The bindings of an object's region in an item template: its own, and longer ones. -/
theorem object_region_item (hscoped : context.Scoped) {p : Nat} {g : GeneratedNode}
    (hg : generated[p]? = some g) (hkind : g.kind = .autoGeneratedLayout)
    (howner : g.owningArrayBinding = context.owningArrayBinding) {selected : List Nat}
    (hrooted : GeneratedRegion.Rooted ⟨generated, some p, selected⟩ context.owningArrayBinding)
    (htemplate : context.owningArray ≠ none) (base : Nat) :
    some [] ∈ scopeBindings (·.bindsValue) context.owningArray
      (GeneratedRegion.nodes ⟨generated, some p, selected⟩ context base) ↔ g.binding = [] := by
  have hp : (p, g) ∈ GeneratedRegion.entries ⟨generated, some p, selected⟩ :=
    GeneratedRegion.mem_entries.mpr ⟨hrooted.mem_included.mpr (.inl rfl), hg⟩
  obtain ⟨binding, hbinding⟩ :=
    Option.ne_none_iff_exists'.mp (mt hscoped.iff.mpr htemplate)
  rw [mem_scopeBindings]
  constructor
  · rintro ⟨n, hn, _, _, hempty⟩
    obtain ⟨⟨x, gx⟩, he, rfl⟩ := List.mem_map.mp hn
    obtain ⟨hx, hgx⟩ := GeneratedRegion.mem_entries.mp he
    have hgx : generated[x]? = some gx := hgx
    have hgxempty : gx.binding = [] := Option.some.inj hempty
    have howned {y : Nat} {gy : GeneratedNode}
        (hy : y ∈ GeneratedRegion.included ⟨generated, some p, selected⟩)
        (hgy : generated[y]? = some gy) : gy.owningArrayBinding = some binding := by
      obtain ⟨gy', hgy', hsome⟩ := (hbinding ▸ hrooted).owned_included hy
      obtain rfl := Option.some.inj (hgy.symm.trans hgy')
      exact hsome
    rcases hrooted.top_or_child hx with htop | ⟨y, hy, hchild⟩
    · obtain rfl := List.mem_singleton.mp htop
      obtain rfl := Option.some.inj (hg.symm.trans hgx)
      exact hgxempty
    · obtain ⟨gy, gx', hgy, hgx', hgh⟩ :=
        mem_generatedChildIndices.mp (hrooted.mem_children hy hchild).1
      obtain rfl := Option.some.inj (hgx.symm.trans hgx')
      exact absurd hgxempty (child_binding_ne hf (List.mem_of_getElem? hgx) hgh
        ((howned hx hgx).trans (howned hy hgy).symm))
  · intro hempty
    refine ⟨_, List.mem_map_of_mem hp, ?_, ?_, congrArg some hempty⟩
    · have hobject := (hf.objects g (List.mem_of_getElem? hg)).mpr hkind
      simp [CompiledNode.bindsValue, GeneratedRegion.node, GeneratedNode.definitionNode, hobject]
    · exact GeneratedRegion.owningArray_eq howner hscoped.iff

theorem object_region_compiled (hscoped : context.Scoped) {p : Nat} {g : GeneratedNode}
    (hg : generated[p]? = some g) (hkind : g.kind = .autoGeneratedLayout)
    (howner : g.owningArrayBinding = context.owningArrayBinding) {selected : List Nat}
    (hrooted : GeneratedRegion.Rooted ⟨generated, some p, selected⟩ context.owningArrayBinding)
    {errorLocation : String}
    (h : materializeGeneratedRegion ⟨generated, some p, selected⟩ context errorLocation before =
      .ok (roots, after)) :
    ∃ added, Compiled generated context before added roots after true g.binding.isEmpty ∧
      SingleRoot context added roots g.binding.isEmpty := by
  obtain ⟨hroots, happended⟩ :=
    GeneratedRegion.materializeGeneratedRegion_appended hscoped.iff hrooted h
  refine ⟨_, ⟨happended, ?_, ?_, ?_, GeneratedRegion.innerPlaces_nodup hscoped.iff hrooted _,
    GeneratedRegion.nodes_content hscoped.iff hrooted⟩, ?_⟩
  · exact iff_of_true (GeneratedRegion.innerPlaces_nodup hscoped.iff hrooted _) rfl
  · intro htemplate _
    rw [object_region_item hf hscoped hg hkind howner hrooted htemplate, List.isEmpty_iff]
  · intro _ hempty
    exact ⟨g, List.mem_of_getElem? hg, howner, List.isEmpty_iff.mp hempty, hkind⟩
  · intro _
    have hp : (p, g) ∈ GeneratedRegion.entries ⟨generated, some p, selected⟩ :=
      GeneratedRegion.mem_entries.mpr ⟨hrooted.mem_included.mpr (.inl rfl), hg⟩
    refine ⟨_, List.mem_map_of_mem hp, hroots, ?_⟩
    have hobject := (hf.objects g (List.mem_of_getElem? hg)).mpr hkind
    simp [GeneratedRegion.node, GeneratedNode.definitionNode, hobject]

theorem compileAuto_compiled (hscoped : context.Scoped) {valueLocation : String} {shown : Auto}
    (h : compileAuto generated context valueLocation shown before = .ok (roots, after)) :
    ∃ added, Compiled generated context before added roots after true
        shown.binding.pointer.isEmpty ∧
      SingleRoot context added roots (Element.auto shown).isItemAuto := by
  unfold compileAuto at h
  obtain ⟨⟨authoredId, state⟩, hregister, h⟩ := bind_eq_ok.mp h
  dsimp only at h
  by_cases horigin : shown.binding.origin ≠ context.origin
  · rw [if_pos horigin] at h
    cases h
  rw [if_neg horigin] at h
  obtain ⟨⟨named, seen⟩, horder, h⟩ := bind_eq_ok.mp h
  dsimp only at h
  by_cases hroot : (shown.binding.pointer.isEmpty && context.owningArrayBinding.isNone) = true
  · rw [if_neg (by simp [hroot])] at h
    obtain ⟨selected, hselect, h⟩ := bind_eq_ok.mp h
    obtain ⟨⟨children, final⟩, hregion, h⟩ := bind_eq_ok.mp h
    rw [if_pos hroot, if_pos hroot] at hregion
    obtain ⟨hempty, hnone⟩ := Bool.and_eq_true_iff.mp hroot
    obtain rfl : context = .root := by
      rcases hscoped with rfl | ⟨binding, id, rfl⟩
      · rfl
      · cases hnone
    obtain ⟨hnodup, hdirect⟩ := selectAutoProperties_ok horder hselect
    rw [List.isEmpty_iff.mp hempty] at hdirect
    obtain ⟨added, hcompiled⟩ := root_region_compiled
      (rootAutoRoots_rooted hf hnodup hdirect) hregion shown.binding.pointer.isEmpty
    exact wrapAutoMeta_compiled hregister hcompiled (fun hne => absurd rfl hne) (Except.ok.inj h)
  · have hroot : (shown.binding.pointer.isEmpty && context.owningArrayBinding.isNone) = false :=
      Bool.eq_false_of_not_eq_true hroot
    simp only [hroot, Bool.false_eq_true, if_false] at h
    cases hparent : findGenerated generated fun node =>
        node.owningArrayBinding == context.owningArrayBinding &&
          node.binding == shown.binding.pointer && node.kind == .autoGeneratedLayout &&
          node.semanticKind == some .fixedObject with
    | none =>
      rw [hparent, if_pos (by simp)] at h
      split at h
      · rename_i unsupported g hunsupported
        obtain ⟨⟨children, final⟩, hregion, h⟩ := bind_eq_ok.mp h
        obtain ⟨hg, htest⟩ := findGenerated_some hunsupported
        simp only [Bool.and_eq_true, beq_iff_eq] at htest
        have hnone := hf.unsupported g (List.mem_of_getElem? hg) htest.2
        obtain rfl : context = .root := by
          rcases hscoped with rfl | ⟨binding, id, rfl⟩
          · rfl
          · cases hnone.symm.trans htest.1.1
        have hrooted := single_rooted hf hg
        rw [hnone] at hrooted
        obtain ⟨added, hcompiled⟩ := root_region_compiled hrooted hregion
          shown.binding.pointer.isEmpty
        exact wrapAutoMeta_compiled hregister hcompiled (fun hne => absurd rfl hne)
          (Except.ok.inj h)
      · cases h
    | some found =>
      obtain ⟨p, g⟩ := found
      rw [hparent, if_neg (by simp)] at h
      obtain ⟨hg, htest⟩ := findGenerated_some hparent
      simp only [Bool.and_eq_true, beq_iff_eq] at htest
      obtain ⟨⟨⟨howner, hbinding⟩, hkind⟩, _⟩ := htest
      obtain ⟨selected, hselect, h⟩ := bind_eq_ok.mp h
      obtain ⟨⟨children, final⟩, hregion, h⟩ := bind_eq_ok.mp h
      obtain ⟨hnodup, hdirect⟩ := selectAutoProperties_ok horder hselect
      rw [← hbinding] at hdirect hroot
      have hrooted := object_rooted hf hg hkind howner hroot hnodup hdirect
      obtain ⟨added, hcompiled, hsingle⟩ :=
        object_region_compiled hf hscoped hg hkind howner hrooted hregion
      rw [hbinding] at hcompiled hsingle
      exact wrapAutoMeta_compiled hregister hcompiled hsingle (Except.ok.inj h)

end Auto

/-! ## Controls -/

/-- The node of an authored control. -/
def controlNode (g : GeneratedNode) (id : Nat) (authoredId : Option String)
    (context : AuthoredBindingContext) (children : List Nat) : CompiledNode :=
  { g.definitionNode id context.owningArray children with authoredId }

structure ControlCompiled (generated : List GeneratedNode) (context : AuthoredBindingContext)
    (binding : Pointer) (hasTemplate : Bool) (before : CompileState) (index : Nat)
    (g : GeneratedNode) (authoredId : Option String) (after : CompileState) : Prop where
  found : generated[index]? = some g
  binds : bindsControl context binding hasTemplate g = true
  array : hasTemplate = true → g.semanticKind = some .homogeneousArray
  fresh : binding ∉ before.bindings
  authoredIds_nodup : before.authoredIds.Nodup → after.authoredIds.Nodup
  state : after = ⟨binding :: before.bindings, authoredId.toList ++ before.authoredIds,
    before.nodes ++ [controlNode g before.nodes.length authoredId context []]⟩

theorem compileControl_ok {valueLocation : String} {control : Control} {hasTemplate : Bool}
    {index : Nat} {g : GeneratedNode} {id : Nat}
    (h : compileControl generated context valueLocation control hasTemplate before =
      .ok (index, g, id, after)) :
    id = before.nodes.length ∧ ∃ authoredId, ControlCompiled generated context
      control.binding.pointer hasTemplate before index g authoredId after := by
  unfold compileControl at h
  obtain ⟨⟨authoredId, state⟩, hregister, h⟩ := bind_eq_ok.mp h
  dsimp only at h
  by_cases horigin : control.binding.origin ≠ context.origin
  · rw [if_pos horigin] at h
    cases h
  rw [if_neg horigin] at h
  cases hfind : findGenerated generated
      (bindsControl context control.binding.pointer hasTemplate) with
  | none =>
    rw [hfind] at h
    cases h
  | some found =>
    obtain ⟨index', g'⟩ := found
    rw [hfind] at h
    dsimp only at h
    obtain ⟨hg, hbinds⟩ := findGenerated_some hfind
    obtain ⟨_, rfl, hnodup⟩ := registerAuthoredId_ok hregister
    by_cases hclash : before.bindings.contains control.binding.pointer = true
    · rw [if_pos hclash] at h
      cases h
    rw [if_neg hclash] at h
    by_cases htemplate : (g'.semanticKind ≠ some .homogeneousArray && hasTemplate) = true
    · rw [if_pos htemplate] at h
      cases h
    rw [if_neg htemplate] at h
    by_cases hlabel :
        (g'.semanticKind ≠ some .homogeneousArray && control.itemLabelValue.isSome) = true
    · rw [if_pos hlabel] at h
      cases h
    rw [if_neg hlabel] at h
    cases h
    refine ⟨rfl, authoredId, hg, hbinds, fun hhas => ?_, ?_, hnodup, rfl⟩
    · simpa [hhas] using htemplate
    · exact fun hmem => hclash (List.contains_iff_mem.mpr hmem)

/-- The item template below the node of an array. -/
structure TemplateCompiled (generated : List GeneratedNode) (binding : Pointer) (id : Nat)
    (before : CompileState) (added : List CompiledNode) (root : Nat) (after : CompileState)
    (once : Bool) : Prop where
  laid : Laid (some id) before added [root] after
  scope : (scopeBindings (·.bindsValue) (some id) added).Nodup ↔ once = true
  controls : (scopeBindings (·.isControl) (some id) added).Nodup
  contents : ∀ n ∈ added, Content generated (.itemTemplate binding id) added n

/-- Everything of a template is in one scope, inside that of its array. -/
theorem innerPlaces_template {test : CompiledNode → Bool} {base array : Nat}
    (h : Segment (some array) base added roots) : innerPlaces test none added =
      (scopeBindings test (some array) added).map fun b => (some array, b) := by
  have howned (n : CompiledNode) (hn : n ∈ added) : n.owningArray = some array := h.owned hn
  rw [innerPlaces, scopeBindings, List.map_map]
  have hfilter : (added.filter fun n => test n && n.owningArray != none) =
      added.filter fun n => test n && n.owningArray == some array := by
    refine List.filter_congr fun n hn => ?_
    simp [howned n hn]
  rw [hfilter]
  refine List.map_congr_left fun n hn => ?_
  simp [howned n (List.mem_of_mem_filter hn)]

theorem innerPlaces_template_nodup {test : CompiledNode → Bool} {base array : Nat}
    (h : Segment (some array) base added roots) :
    (innerPlaces test none added).Nodup ↔ (scopeBindings test (some array) added).Nodup := by
  rw [innerPlaces_template h]
  exact List.nodup_map_iff fun _ _ heq => (Prod.mk.inj heq).2

namespace ControlCompiled

variable {binding : Pointer} {hasTemplate : Bool} {index : Nat} {g : GeneratedNode}
  {authoredId : Option String}

theorem facts (h : ControlCompiled generated context binding hasTemplate before index g authoredId
    after) : g.owningArrayBinding = context.owningArrayBinding ∧ g.binding = binding ∧
      g.kind = .control := by
  have hbinds := h.binds
  simp only [bindsControl, Bool.and_eq_true, beq_iff_eq] at hbinds
  exact ⟨hbinds.1.1.1, hbinds.1.1.2, hbinds.1.2⟩

theorem bindsValue (h : ControlCompiled generated context binding hasTemplate before index g
    authoredId after) (children : List Nat) :
    (controlNode g before.nodes.length authoredId context children).bindsValue = true := by
  simp [CompiledNode.bindsValue, controlNode, GeneratedNode.definitionNode, h.facts.2.2]

theorem scope (h : ControlCompiled generated context binding hasTemplate before index g
    authoredId after) (children : List Nat) :
    scopeBindings (·.bindsValue) context.owningArray
      [controlNode g before.nodes.length authoredId context children] = [some binding] := by
  have howner : (controlNode g before.nodes.length authoredId context children).owningArray =
      context.owningArray := rfl
  rw [scopeBindings_singleton, h.bindsValue children, howner, beq_self_eq_true, Bool.and_self,
    if_pos rfl, ← h.facts.2.1]
  rfl

/-- A control shows what it binds. -/
theorem content (h : ControlCompiled generated context binding hasTemplate before index g
    authoredId after) (children : List Nat) (nodes : List CompiledNode) :
    Content generated context nodes
      (controlNode g before.nodes.length authoredId context children) :=
  .shown g (List.mem_of_getElem? h.found) _ _ _ _ (.inl ⟨rfl, h.facts.1⟩)

/-- A control that binds no array. -/
theorem leaf (hf : GeneratedForest generated)
    (h : ControlCompiled generated context binding hasTemplate before index g authoredId after)
    (hkind : g.semanticKind ≠ some .homogeneousArray) :
    Compiled generated context before
        [controlNode g before.nodes.length authoredId context []] [before.nodes.length] after
        true false ∧
      SingleRoot context [controlNode g before.nodes.length authoredId context []]
        [before.nodes.length] false := by
  have hmem := List.mem_of_getElem? h.found
  have howner : (controlNode g before.nodes.length authoredId context []).owningArray =
      context.owningArray := rfl
  refine ⟨⟨⟨?_, ?_, ?_, ?_, ?_, h.authoredIds_nodup⟩, ?_, ?_, ?_, ?_, ?_⟩, ?_⟩
  · rw [h.state]
  · exact .single rfl rfl rfl hkind
  · rw [h.scope, h.state]
    exact .refl _
  · intro hn
    rw [h.state]
    exact List.nodup_cons.mpr ⟨h.fresh, hn⟩
  · rw [h.state]
    cases authoredId <;> exact .refl _
  · simp [innerPlaces_singleton howner]
  · -- the item object is there already at the empty binding
    rintro htemplate ⟨o, ho, howner, hempty, hobject⟩
    rw [h.scope, List.mem_singleton, Option.some.injEq]
    refine ⟨fun hbinding => ?_, fun hfalse => by cases hfalse⟩
    obtain ⟨i, hi⟩ := List.mem_iff_getElem?.mp ho
    obtain ⟨howner', hbinding', hcontrol⟩ := h.facts
    obtain rfl := place_inj hf hi h.found (howner.trans howner'.symm)
      (hempty.trans (hbinding.trans hbinding'.symm))
    obtain rfl := Option.some.inj (hi.symm.trans h.found)
    cases hobject.symm.trans hcontrol
  · intro _ hfalse
    cases hfalse
  · rw [innerPlaces_singleton howner]
    exact List.nodup_nil
  · intro n hn
    obtain rfl := List.mem_singleton.mp hn
    exact h.content [] _
  · intro _
    refine ⟨_, List.mem_singleton_self _, rfl, ?_⟩
    refine ⟨fun hitem => ?_, fun hfalse => by cases hfalse⟩
    cases h.facts.2.2.symm.trans ((hf.objects g hmem).mp hitem.1)

/-- An array with the compiled template below it. -/
theorem array_compiled
    (h : ControlCompiled generated .root binding hasTemplate before index g authoredId after)
    (hkind : g.semanticKind = some .homogeneousArray) {template : CompileState} {r : Nat}
    {once : Bool} (ht : TemplateCompiled generated binding before.nodes.length
      { after with bindings := [] } added r template once) (shows : Bool) :
    ∃ added, Compiled generated .root before added [before.nodes.length]
      ({ template with bindings := after.bindings }.setChildren before.nodes.length [r])
      once shows := by
  have hbase : after.nodes.length = before.nodes.length + 1 := by
    rw [h.state, List.length_append, List.length_singleton]
  have hsegment : Segment (some before.nodes.length) (before.nodes.length + 1) added [r] := by
    rw [← hbase]
    exact ht.laid.segment
  have hscope : scopeBindings (·.bindsValue) none added = [] := by
    rw [scopeBindings, List.map_eq_nil_iff, List.filter_eq_nil_iff]
    intro n hn
    simp [hsegment.owned hn]
  have howner : (controlNode g before.nodes.length authoredId .root [r]).owningArray = none := rfl
  have hinner (test : CompiledNode → Bool) :
      (innerPlaces test none
        (controlNode g before.nodes.length authoredId .root [r] :: added)).Nodup ↔
        (scopeBindings test (some before.nodes.length) added).Nodup := by
    rw [← List.singleton_append, innerPlaces_append, innerPlaces_singleton howner,
      List.nil_append, innerPlaces_template_nodup hsegment]
  refine ⟨controlNode g before.nodes.length authoredId .root [r] :: added,
    ⟨?_, ?_, ?_, ?_, ?_, ?_⟩, (hinner _).trans ht.scope, fun hne => absurd rfl hne,
    fun hne => absurd rfl hne, (hinner _).mpr ht.controls, ?_⟩
  · show template.nodes.modify before.nodes.length _ = _
    rw [ht.laid.nodes, h.state]
    dsimp only
    rw [List.append_assoc, List.singleton_append, ListEdit.modify_append]
    rfl
  · exact hsegment.above rfl rfl rfl (if_pos hkind) (fun _ => ⟨rfl, rfl⟩) (.inr ⟨rfl, rfl⟩)
  · show (after.bindings.map some).Perm (scopeBindings _ none _ ++ _)
    rw [← List.singleton_append, scopeBindings_append, hscope, List.append_nil]
    have hsingle : scopeBindings (·.bindsValue) none
        [controlNode g before.nodes.length authoredId .root [r]] = [some binding] := h.scope [r]
    rw [hsingle, h.state]
    exact .refl _
  · intro hn
    show after.bindings.Nodup
    rw [h.state]
    exact List.nodup_cons.mpr ⟨h.fresh, hn⟩
  · refine ht.laid.authoredIds.trans ?_
    rw [h.state]
    cases authoredId with
    | none => exact .refl _
    | some id => exact List.perm_middle
  · exact fun hn => ht.laid.authoredIds_nodup (h.authoredIds_nodup hn)
  · intro n hn
    rcases List.mem_cons.mp hn with rfl | hn
    · exact h.content [r] _
    · exact (ht.contents n hn).outside (List.subset_cons_self _ _) List.mem_cons_self rfl rfl
        (congrArg some h.facts.2.1)

/-- A multiple choice without an authored template. -/
theorem choice_compiled (hf : GeneratedForest generated)
    (h : ControlCompiled generated .root binding hasTemplate before index g authoredId after)
    (hkind : g.semanticKind = some .homogeneousArray) {valueLocation : String}
    {final : CompileState}
    (hchoice : compileChoiceTemplate generated valueLocation binding index before.nodes.length
      after = .ok final) (shows : Bool) :
    ∃ added, Compiled generated .root before added [before.nodes.length] final true shows := by
  unfold compileChoiceTemplate at hchoice
  obtain ⟨⟨children, template⟩, hregion, hfinal⟩ := bind_eq_ok.mp hchoice
  obtain rfl := Except.ok.inj hfinal
  obtain ⟨c, hchildren⟩ := array_children hf h.found hkind
  obtain ⟨g', gc, hg', hgc, hgh⟩ :=
    mem_generatedChildIndices.mp (hchildren ▸ List.mem_singleton_self c)
  obtain rfl := Option.some.inj (h.found.symm.trans hg')
  have howner := (hangs_array hf (List.mem_of_getElem? h.found) (List.mem_of_getElem? hgc) hkind
    hgh).1
  have hrooted := single_rooted hf hgc
  rw [howner, h.facts.2.1] at hrooted
  rw [hchildren] at hregion
  have hscoped : AuthoredBindingContext.Scoped (.itemTemplate binding before.nodes.length) :=
    .inr ⟨_, _, rfl⟩
  obtain ⟨rfl, happended⟩ :=
    GeneratedRegion.materializeGeneratedRegion_appended hscoped.iff hrooted hregion
  have hscope := happended.scope_nodup List.nodup_nil
  exact h.array_compiled hkind {
    laid := happended.laid
    scope := iff_of_true hscope rfl
    controls := hscope.sublist (scopeBindings_controls _ _)
    contents := GeneratedRegion.nodes_content hscoped.iff hrooted } shows

theorem root_of_array (hscoped : context.Scoped)
    (h : ControlCompiled generated context binding hasTemplate before index g authoredId after)
    (hkind : g.semanticKind = some .homogeneousArray) :
    context = .root ∧ (hasTemplate = true ∨ g.multipleChoice = true) := by
  have hbinds := h.binds
  simp only [bindsControl, hkind, bne_self_eq_false, Bool.false_or, Bool.and_eq_true, beq_iff_eq,
    Bool.or_eq_true] at hbinds
  refine ⟨?_, hbinds.2.2⟩
  rcases hscoped with rfl | ⟨binding, id, rfl⟩
  · rfl
  · cases hbinds.2.1

end ControlCompiled

theorem isItemObject_iff {before : CompileState} {owner : Option Nat}
    (h : Laid owner before added roots after) {n : CompiledNode} (hn : n ∈ added) :
    isItemObject after.nodes [n.id] = true ↔
      n.semanticKind = some .fixedObject ∧ n.binding = some [] := by
  rw [isItemObject, h.nodes, h.segment.get_id _ hn]
  simp

/-- A template compiled in its own scope. -/
theorem Compiled.template {binding : Pointer} {id root : Nat} {template : CompileState}
    {once shows : Bool}
    (h : Compiled generated (.itemTemplate binding id) before added [root] template once shows)
    (hn : before.bindings.Nodup) {isItem : Bool} (hitem : isItem = true) :
    TemplateCompiled generated binding id before added root template isItem := by
  have hscope := h.appended.scope_nodup hn
  exact {
    laid := h.appended.laid
    scope := iff_of_true hscope hitem
    controls := hscope.sublist (scopeBindings_controls _ _)
    contents := h.contents }

/-- The node of the item object above the template. -/
theorem Compiled.wrapped {binding : Pointer} {id root : Nat} {template : CompileState}
    {once shows : Bool}
    (h : Compiled generated (.itemTemplate binding id) before added [root] template once shows)
    (hn : before.bindings.Nodup) {object : GeneratedNode} (hobject : object ∈ generated)
    (howner : object.owningArrayBinding = some binding) (hempty : object.binding = [])
    (hkind : object.kind = .autoGeneratedLayout)
    (hsemantic : object.semanticKind = some .fixedObject) :
    TemplateCompiled generated binding id before
      (added ++ [{ object.definitionNode 0 (some id) [root] with id := template.nodes.length }])
      template.nodes.length (template.pushDefinitionNode
        (object.definitionNode 0 (some id) [root])).2 !shows := by
  have htemplate : (AuthoredBindingContext.itemTemplate binding id).owningArray ≠ none :=
    Option.some_ne_none id
  have hscope : (scopeBindings (·.bindsValue) (some id) added).Nodup := h.appended.scope_nodup hn
  have hlength : template.nodes.length = before.nodes.length + added.length := by
    rw [h.appended.nodes, List.length_append]
  refine ⟨⟨?_, ?_, ?_, h.appended.authoredIds_nodup⟩, ?_, ?_, ?_⟩
  · rw [← List.append_assoc]
    exact congrArg (· ++ [_]) h.appended.nodes
  · rw [hlength]
    refine h.appended.segment.push rfl rfl rfl ?_
    show object.semanticKind ≠ _
    rw [hsemantic]
    decide
  · refine h.appended.authoredIds.trans (List.Perm.of_eq ?_)
    rw [List.filterMap_append]
    simp [GeneratedNode.definitionNode]
  · rw [scopeBindings_append, scopeBindings_singleton]
    have hbinds : CompiledNode.bindsValue { object.definitionNode 0 (some id) [root] with
        id := template.nodes.length } = true := by
      simp [CompiledNode.bindsValue, GeneratedNode.definitionNode, hsemantic]
    rw [hbinds]
    have hitems : some [] ∈ scopeBindings (·.bindsValue) (some id) added ↔ shows = true :=
      h.item htemplate ⟨object, hobject, howner, hempty, hkind⟩
    simp only [GeneratedNode.definitionNode, beq_self_eq_true, Bool.and_self, if_true, hempty,
      List.nodup_append, List.mem_singleton]
    have hfree : (∀ a ∈ scopeBindings (·.bindsValue) (some id) added,
          ∀ b, b = some [] → a ≠ b) ↔
        some [] ∉ scopeBindings (·.bindsValue) (some id) added := by
      constructor
      · intro hapart hmem
        exact hapart _ hmem _ rfl rfl
      · rintro hnot a ha b rfl rfl
        exact hnot ha
    rw [hfree, hitems, Bool.not_eq_true', Bool.not_eq_true]
    exact ⟨fun hall => hall.2.2, fun hall => ⟨hscope, List.nodup_singleton _, hall⟩⟩
  · have hcontrol : CompiledNode.isControl { object.definitionNode 0 (some id) [root] with
        id := template.nodes.length } = false := by
      simp [CompiledNode.isControl, GeneratedNode.definitionNode, hkind]
    rw [scopeBindings_append, scopeBindings_singleton, hcontrol, Bool.false_and,
      if_neg Bool.false_ne_true, List.append_nil]
    exact hscope.sublist (scopeBindings_controls _ _)
  · refine content_append h.contents fun n hn => ?_
    obtain rfl := List.mem_singleton.mp hn
    exact .shown object hobject _ _ _ _ (.inl ⟨rfl, howner⟩)

/-- The compiled template, below the node of its item object where that is missing. -/
theorem wrapItemObject_compiled (hf : GeneratedForest generated) {binding : Pointer} {id : Nat}
    {isItem shows : Bool} {template : CompileState}
    (h : Compiled generated (.itemTemplate binding id) before added roots template true shows)
    (hsingle : SingleRoot (.itemTemplate binding id) added roots isItem)
    (hn : before.bindings.Nodup) {children : List Nat}
    (hwrap : wrapItemObject generated binding id roots template = (children, after)) :
    ∃ added' r, children = [r] ∧
      TemplateCompiled generated binding id before added' r after (isItem || !shows) := by
  have htemplate : (AuthoredBindingContext.itemTemplate binding id).owningArray ≠ none :=
    Option.some_ne_none id
  obtain ⟨n, hmem, rfl, hitem⟩ := hsingle htemplate
  unfold wrapItemObject at hwrap
  cases hfind : generated.find? fun node => node.owningArrayBinding == some binding &&
      node.binding.isEmpty && node.kind == .autoGeneratedLayout &&
      node.semanticKind == some .fixedObject with
  | none =>
    rw [hfind, Option.filter_none] at hwrap
    obtain ⟨rfl, rfl⟩ := Prod.mk.inj hwrap
    refine ⟨added, n.id, rfl, h.template hn ?_⟩
    cases hshows : shows with
    | false => simp
    | true =>
      obtain ⟨o, ho, howner, hempty, hkind⟩ := h.object htemplate hshows
      have howner : o.owningArrayBinding = some binding := howner
      have hnot := List.find?_eq_none.mp hfind o ho
      simp [howner, hempty, hkind, (hf.objects o ho).mpr hkind] at hnot
  | some itemObject =>
    rw [hfind] at hwrap
    obtain ⟨hobject, htest⟩ := And.intro (List.mem_of_find?_eq_some hfind)
      (List.find?_some hfind)
    simp only [Bool.and_eq_true, beq_iff_eq, List.isEmpty_iff] at htest
    obtain ⟨⟨⟨howner, hempty⟩, hkind⟩, hsemantic⟩ := htest
    have hisItem := (isItemObject_iff h.appended.laid hmem).trans hitem
    cases hplain : isItem with
    | true =>
      rw [Option.filter_some, hisItem.mpr hplain] at hwrap
      obtain ⟨rfl, rfl⟩ := Prod.mk.inj hwrap
      exact ⟨added, n.id, rfl, h.template hn rfl⟩
    | false =>
      have hfalse : isItemObject template.nodes [n.id] = false := by
        rw [← Bool.not_eq_true, hisItem, hplain]
        exact Bool.false_ne_true
      rw [Option.filter_some, hfalse] at hwrap
      obtain ⟨rfl, rfl⟩ := Prod.mk.inj hwrap
      exact ⟨_, _, rfl, h.wrapped hn hobject howner hempty hkind hsemantic⟩

/-! ## Elements -/

/-- In an item template there are no arrays. -/
theorem Compiled.template_once {array : Nat} {once shows : Bool}
    (h : Compiled generated context before added roots after once shows)
    (hcontext : context.owningArray = some array) : once = true := by
  refine h.inner.mp ?_
  have hsegment : Segment (some array) before.nodes.length added roots :=
    hcontext ▸ h.appended.segment
  have hnil : innerPlaces (·.bindsValue) context.owningArray added = [] := by
    rw [innerPlaces, List.map_eq_nil_iff, List.filter_eq_nil_iff]
    intro n hn
    simp [hsegment.owned hn, hcontext]
  rw [hnil]
  exact List.nodup_nil

mutual

theorem compileAuthoredElement_compiled (hf : GeneratedForest generated)
    {context : AuthoredBindingContext} (hscoped : context.Scoped) (location : String) :
    ∀ (element : Element) {before after : CompileState} {roots : List Nat},
      compileAuthoredElement generated context location element before = .ok (roots, after) →
        ∃ added, Compiled generated context before added roots after element.showsItemsOnce
            element.showsItem ∧ SingleRoot context added roots element.isItemAuto
  | .control control none, before, after, roots, h => by
    rw [compileAuthoredElement] at h
    obtain ⟨⟨index, g, id, middle⟩, hcontrol, h⟩ := bind_eq_ok.mp h
    obtain ⟨compiled, htemplate, h⟩ := bind_eq_ok.mp h
    rw [compileItemTemplate] at htemplate
    obtain rfl := Except.ok.inj htemplate
    obtain ⟨rfl, authoredId, hcompiled⟩ := compileControl_ok hcontrol
    dsimp only at h
    by_cases hchoice : g.multipleChoice = true
    · rw [if_pos hchoice] at h
      obtain ⟨final, hchoice', h⟩ := bind_eq_ok.mp h
      obtain ⟨rfl, rfl⟩ := Prod.mk.inj (Except.ok.inj h)
      have hkind := hf.choices g (List.mem_of_getElem? hcompiled.found) hchoice
      obtain ⟨rfl, _⟩ := hcompiled.root_of_array hscoped hkind
      obtain ⟨added, hadded⟩ := hcompiled.choice_compiled hf hkind hchoice' false
      exact ⟨added, hadded, fun hne => absurd rfl hne⟩
    · rw [if_neg hchoice] at h
      obtain ⟨rfl, rfl⟩ := Prod.mk.inj (Except.ok.inj h)
      have hkind : g.semanticKind ≠ some .homogeneousArray := by
        intro hkind
        rcases (hcompiled.root_of_array hscoped hkind).2 with hhas | hhas
        · cases hhas
        · exact hchoice hhas
      exact ⟨_, hcompiled.leaf hf hkind⟩
  | .control control (some template), before, after, roots, h => by
    rw [compileAuthoredElement] at h
    obtain ⟨⟨index, g, id, middle⟩, hcontrol, h⟩ := bind_eq_ok.mp h
    obtain ⟨compiled, htemplate, h⟩ := bind_eq_ok.mp h
    rw [compileItemTemplate] at htemplate
    obtain ⟨⟨authored, final⟩, hbody, hsome⟩ := bind_eq_ok.mp htemplate
    obtain rfl := Except.ok.inj hsome
    obtain ⟨rfl, authoredId, hcompiled⟩ := compileControl_ok hcontrol
    obtain ⟨rfl, rfl⟩ := Prod.mk.inj (Except.ok.inj h)
    have hkind := hcompiled.array rfl
    obtain ⟨rfl, _⟩ := hcompiled.root_of_array hscoped hkind
    obtain ⟨inner, hinner, hsingle⟩ :=
      compileAuthoredElement_compiled hf (.inr ⟨_, _, rfl⟩) _ template hbody
    rw [hinner.template_once rfl] at hinner
    obtain ⟨added, r, hr, hwrapped⟩ :=
      wrapItemObject_compiled hf hinner hsingle List.nodup_nil rfl
    obtain ⟨added', hadded⟩ := hcompiled.array_compiled hkind hwrapped false
    rw [← hr] at hadded
    exact ⟨added', hadded, fun hne => absurd rfl hne⟩
  | .auto shown, before, after, roots, h => by
    rw [compileAuthoredElement] at h
    exact compileAuto_compiled hf hscoped h
  | .stack metaValue children, before, after, roots, h => by
    rw [compileAuthoredElement] at h
    obtain ⟨⟨authoredId, state⟩, hregister, h⟩ := bind_eq_ok.mp h
    obtain ⟨⟨children', state'⟩, hchildren, h⟩ := bind_eq_ok.mp h
    obtain ⟨rfl, rfl⟩ := Prod.mk.inj (Except.ok.inj h)
    obtain ⟨added, hcompiled⟩ := compileAuthoredElements_compiled hf hscoped _ none
      (by simp) 0 children
      hchildren
    exact ⟨_, hcompiled.present hregister (by decide) rfl, .presentation rfl⟩
  | .grid metaValue cells, before, after, roots, h => by
    rw [compileAuthoredElement] at h
    obtain ⟨⟨authoredId, state⟩, hregister, h⟩ := bind_eq_ok.mp h
    obtain ⟨⟨cells', state'⟩, hcells, h⟩ := bind_eq_ok.mp h
    obtain ⟨rfl, rfl⟩ := Prod.mk.inj (Except.ok.inj h)
    obtain ⟨added, hcompiled⟩ := compileAuthoredElements_compiled hf hscoped _ (some .gridCell)
      (by decide) 0 cells hcells
    exact ⟨_, hcompiled.present hregister (by decide) rfl, .presentation rfl⟩
  | .group metaValue child, before, after, roots, h => by
    rw [compileAuthoredElement] at h
    obtain ⟨⟨authoredId, state⟩, hregister, h⟩ := bind_eq_ok.mp h
    obtain ⟨⟨children', state'⟩, hchild, h⟩ := bind_eq_ok.mp h
    obtain ⟨rfl, rfl⟩ := Prod.mk.inj (Except.ok.inj h)
    obtain ⟨added, hcompiled, _⟩ := compileAuthoredElement_compiled hf hscoped _ child hchild
    exact ⟨_, hcompiled.present hregister (by decide) rfl, .presentation rfl⟩
  | .tabs metaValue panels, before, after, roots, h => by
    rw [compileAuthoredElement] at h
    obtain ⟨⟨authoredId, state⟩, hregister, h⟩ := bind_eq_ok.mp h
    obtain ⟨⟨panels', state'⟩, hpanels, h⟩ := bind_eq_ok.mp h
    obtain ⟨rfl, rfl⟩ := Prod.mk.inj (Except.ok.inj h)
    obtain ⟨added, hcompiled⟩ := compileAuthoredElements_compiled hf hscoped _ (some .tabPanel)
      (by decide) 0 panels hpanels
    exact ⟨_, hcompiled.present hregister (by decide) rfl, .presentation rfl⟩
  | .text metaValue, before, after, roots, h => by
    rw [compileAuthoredElement] at h
    obtain ⟨⟨authoredId, state⟩, hregister, h⟩ := bind_eq_ok.mp h
    obtain ⟨rfl, rfl⟩ := Prod.mk.inj (Except.ok.inj h)
    exact ⟨_, Compiled.nil.present hregister (by decide) rfl, .presentation rfl⟩

theorem compileAuthoredElements_compiled (hf : GeneratedForest generated)
    {context : AuthoredBindingContext} (hscoped : context.Scoped) (location : Nat → String)
    (wrapper : Option DefinitionNodeKind)
    (hwrapper : wrapper ≠ some .control ∧ wrapper ≠ some .unsupported) :
    ∀ (index : Nat) (elements : List Element) {before after : CompileState} {roots : List Nat},
      compileAuthoredElements generated context location wrapper index elements before =
          .ok (roots, after) →
        ∃ added, Compiled generated context before added roots after
          (Element.allShowItemsOnce elements) (Element.anyShowsItem elements)
  | index, [], before, after, roots, h => by
    rw [compileAuthoredElements] at h
    obtain ⟨rfl, rfl⟩ := Prod.mk.inj (Except.ok.inj h)
    exact ⟨[], .nil⟩
  | index, element :: elements, before, after, roots, h => by
    rw [compileAuthoredElements] at h
    obtain ⟨⟨first, state⟩, hfirst, h⟩ := bind_eq_ok.mp h
    obtain ⟨added, hcompiled, _⟩ := compileAuthoredElement_compiled hf hscoped _ element hfirst
    cases wrapper with
    | none =>
      obtain ⟨⟨rest, state'⟩, hrest, h⟩ := bind_eq_ok.mp h
      obtain ⟨rfl, rfl⟩ := Prod.mk.inj (Except.ok.inj h)
      obtain ⟨added', hrest⟩ := compileAuthoredElements_compiled hf hscoped location none hwrapper
        (index + 1) elements hrest
      exact ⟨_, hcompiled.trans hrest⟩
    | some kind =>
      obtain ⟨⟨rest, state'⟩, hrest, h⟩ := bind_eq_ok.mp h
      obtain ⟨rfl, rfl⟩ := Prod.mk.inj (Except.ok.inj h)
      have hregister : registerAuthoredId {} "" before = .ok (none, before) := rfl
      have hkind : kind ≠ .control ∧ kind ≠ .unsupported :=
        ⟨fun heq => hwrapper.1 (heq ▸ rfl), fun heq => hwrapper.2 (heq ▸ rfl)⟩
      obtain ⟨added', hrest⟩ := compileAuthoredElements_compiled hf hscoped location (some kind)
        hwrapper (index + 1) elements hrest
      exact ⟨_, (hcompiled.present hregister hkind rfl).trans hrest⟩

end

end Schemaform
