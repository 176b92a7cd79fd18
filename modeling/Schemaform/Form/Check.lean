import Schemaform.Form.Definition

/-!
# Form.Check

Well-formedness of a definition by inspection of its lists.

* `Engine.FormDefinition.Checked`, `NumberedNodes`, `ScopedNodes`, `ShownNodes`: decidable
  conditions, for nodes that are numbered from the root down.
* `wellFormed_of_checked`: they suffice.
* `DefinitionNode.root`, `DefinitionNode.showing`.
-/

namespace Schemaform

namespace Engine

def ArrayItemTemplate.Checked (template : ArrayItemTemplate) : Prop :=
  (template.controls.map (·.binding)).Pairwise Pointer.Apart ∧
  (∀ o ∈ template.objects, ∀ c ∈ template.controls, o.binding.startsWith c.binding = false) ∧
  (∀ c ∈ template.controls, ∀ v ∈ c.choices, v.WF) ∧
  template.creationSeed.WF ∧
  (∀ o ∈ template.objects, o.creationSeed.WF) ∧
  (∀ c ∈ template.controls, ∀ v ∈ c.annotations.defaults, v.WF) ∧
  (∀ o ∈ template.objects, o.creationSeed.isObject = true) ∧
  (∀ c ∈ template.controls, c.binding = [] → c.required = true) ∧
  ∀ o ∈ template.objects, o.binding = [] → o.required = true

instance (template : ArrayItemTemplate) : Decidable template.Checked :=
  inferInstanceAs (Decidable (_ ∧ _))

theorem ArrayItemTemplate.Checked.wellFormed {template : ArrayItemTemplate}
    (h : template.Checked) : template.WellFormed := by
  obtain ⟨hc, ho, hch, hs, hos, hd, hobject, hscalar, hroot⟩ := h
  exact ⟨hc, ho, hch, hs, hos, hd, hobject, hscalar, hroot⟩

def FormDefinition.Checked (definition : FormDefinition) : Prop :=
  let leaves := definition.controls.map (·.binding) ++ definition.arrays.map (·.binding)
  leaves.Pairwise Pointer.Apart ∧ (∀ b ∈ leaves, b ≠ []) ∧
  (∀ o ∈ definition.objects, ∀ b ∈ leaves, o.binding.startsWith b = false) ∧
  (∀ o ∈ definition.objects, o.binding ≠ []) ∧
  (∀ a ∈ definition.arrays, a.itemTemplate.Checked) ∧
  (∀ c ∈ definition.controls, ∀ v ∈ c.choices, v.WF) ∧
  (∀ a ∈ definition.arrays, a.creationSeed.WF) ∧
  (∀ o ∈ definition.objects, o.creationSeed.WF) ∧
  (∀ c ∈ definition.controls, ∀ v ∈ c.annotations.defaults, v.WF) ∧
  (∀ a ∈ definition.arrays, ∀ v ∈ a.annotations.defaults, v.WF) ∧
  (∀ a ∈ definition.arrays, a.creationSeed.isArray = true) ∧
  ∀ o ∈ definition.objects, o.creationSeed.isObject = true

instance (definition : FormDefinition) : Decidable definition.Checked :=
  inferInstanceAs (Decidable (_ ∧ _))

theorem FormDefinition.Checked.wellFormed {definition : FormDefinition} (h : definition.Checked) :
    definition.WellFormed := by
  obtain ⟨hl, hr, ho, hor, ht, hc, has, hos, hd, had, harray, hobject⟩ := h
  exact ⟨hl, hr, ho, hor, fun a ha => (ht a ha).wellFormed, hc, has, hos, hd, had, harray, hobject⟩

end Engine

namespace DefinitionInner

instance (definition : DefinitionInner) (node : DefinitionNode) (generated : GeneratedNode) :
    Decidable (definition.Instantiates node generated) :=
  decidable_of_iff
    (node.kind = generated.kind ∧ node.semanticKind = generated.semanticKind ∧
      node.binding = some generated.binding ∧
      node.dataSchemaAnnotations = generated.dataSchemaAnnotations ∧
      node.creationSeed = generated.creationSeed ∧ node.required = generated.required ∧
      node.acceptsNull = generated.acceptsNull ∧ node.choiceOptions = generated.choiceOptions ∧
      node.choiceSelectable = generated.choiceSelectable ∧
      node.multipleChoice = generated.multipleChoice ∧
      node.owningArray.isSome = generated.owningArrayBinding.isSome ∧
      definition.ownerBinding node = generated.owningArrayBinding)
    ⟨fun ⟨a, b, c, d, e, f, g, h, i, j, k, l⟩ => ⟨a, b, c, d, e, f, g, h, i, j, k, l⟩,
      fun ⟨a, b, c, d, e, f, g, h, i, j, k, l⟩ => ⟨a, b, c, d, e, f, g, h, i, j, k, l⟩⟩

instance (definition : DefinitionInner) (node : DefinitionNode) :
    Decidable (definition.Presentation node) :=
  decidable_of_iff
    (node.semanticKind = none ∧ node.binding = none ∧
      (node.kind ≠ .control ∧ node.kind ≠ .unsupported) ∧ node.multipleChoice = false ∧
      (node.dataSchemaAnnotations = {} ∨
        node.id = 0 ∧ node.dataSchemaAnnotations = definition.engine.rootAnnotations))
    ⟨fun ⟨a, b, c, d, e⟩ => ⟨a, b, c, d, e⟩, fun ⟨a, b, c, d, e⟩ => ⟨a, b, c, d, e⟩⟩

variable (definition : DefinitionInner)

/-- Ids are positions, and children come after their parent. -/
def NumberedNodes : Prop :=
  definition.nodes.map (·.id) = List.range definition.nodes.length ∧
  (∀ node ∈ definition.nodes, ∀ child ∈ node.children,
    node.id < child ∧ child < definition.nodes.length) ∧
  (∀ node ∈ definition.nodes, node.id = 0 ∨ ∃ parent ∈ definition.nodes,
    node.id ∈ parent.children) ∧
  ∀ node ∈ definition.nodes, node.children.Nodup ∧ ∀ other ∈ definition.nodes,
    ∀ child ∈ node.children, child ∈ other.children → node.id = other.id

instance : Decidable definition.NumberedNodes := inferInstanceAs (Decidable (_ ∧ _))

/-- Item templates hang below their array and nowhere else. -/
def ScopedNodes : Prop :=
  ((definition.nodes[0]?).any fun node => node.owningArray.isNone && node.binding.isNone) = true ∧
  (∀ node ∈ definition.nodes, ∀ child ∈ node.children,
    (definition.nodes[child]?).any (fun child => child.owningArray ==
      if node.semanticKind = some .homogeneousArray then some node.id else node.owningArray) =
        true) ∧
  (∀ node ∈ definition.nodes, node.semanticKind = some .homogeneousArray →
    node.children.length = 1) ∧
  ∀ node ∈ definition.nodes, ∀ other ∈ definition.nodes, node.kind = .control →
    other.kind = .control → node.owningArray = other.owningArray → node.binding = other.binding →
    node.id = other.id

instance : Decidable definition.ScopedNodes := inferInstanceAs (Decidable (_ ∧ _))

/-- The generated nodes before they are sorted. -/
def unsortedNodes : List GeneratedNode :=
  definition.engine.objects.map (generatedObject none) ++
    definition.engine.controls.map (generatedControl none) ++
    (definition.engine.arrays.flatMap fun array =>
      generatedArray array ::
        (array.itemTemplate.objects.map (generatedObject (some array.binding)) ++
          array.itemTemplate.controls.map (generatedControl (some array.binding)))) ++
    definition.engine.unsupportedRegions.map generatedUnsupported

theorem mem_generatedNodes_iff {generated : GeneratedNode} :
    generated ∈ generatedNodes definition.engine ↔ generated ∈ definition.unsortedNodes :=
  List.mem_insertionSort _

def ShownNodes : Prop :=
  ∀ node ∈ definition.nodes,
    (∃ generated ∈ definition.unsortedNodes, definition.Instantiates node generated) ∨
    definition.Presentation node

instance : Decidable definition.ShownNodes := List.decidableBAll _ _

variable {definition}

/-! ## Sufficiency -/

theorem NumberedNodes.id_eq (h : definition.NumberedNodes) {i : Nat} {node : DefinitionNode}
    (hi : definition.nodes[i]? = some node) : node.id = i := by
  have hlt := (List.getElem?_eq_some_iff.mp hi).1
  have hid : (definition.nodes.map (·.id))[i]? = some node.id := by
    rw [List.getElem?_map, hi, Option.map_some]
  rw [h.1, List.getElem?_range hlt] at hid
  exact (Option.some.inj hid).symm

theorem NumberedNodes.children_eq (h : definition.NumberedNodes) (x : Nat) :
    definition.children x = ((definition.nodes[x]?).map (·.children)).getD [] := by
  unfold children node
  cases hx : definition.nodes[x]? with
  | none => rfl
  | some node => rw [Option.filter_some, if_pos (beq_iff_eq.mpr (h.id_eq hx))]

theorem NumberedNodes.mem_children (h : definition.NumberedNodes) {x c : Nat} :
    c ∈ definition.children x ↔
      ∃ node, definition.nodes[x]? = some node ∧ node.id = x ∧ c ∈ node.children := by
  rw [h.children_eq]
  cases hx : definition.nodes[x]? with
  | none => simp
  | some node => simp [h.id_eq hx]

theorem NumberedNodes.numbered (h : definition.NumberedNodes) :
    Forest.Numbered definition.children definition.nodes.length where
  child := by
    intro x c hc
    obtain ⟨node, hx, rfl, hmem⟩ := h.mem_children.mp hc
    exact h.2.1 node (List.mem_of_getElem? hx) c hmem
  parent := by
    intro c hc
    have hget := List.getElem?_eq_getElem hc
    have hid := h.id_eq hget
    rcases h.2.2.1 _ (List.getElem_mem hc) with h0 | ⟨parent, hp, hmem⟩
    · exact .inl (hid.symm.trans h0)
    · obtain ⟨x, hx⟩ := List.mem_iff_getElem?.mp hp
      exact .inr ⟨x, h.mem_children.mpr ⟨parent, hx, h.id_eq hx, hid ▸ hmem⟩⟩

theorem NumberedNodes.uniqueParent (h : definition.NumberedNodes) :
    Forest.UniqueParent definition.children where
  nodup := by
    intro x
    rw [h.children_eq]
    cases hx : definition.nodes[x]? with
    | none => exact List.nodup_nil
    | some node => exact (h.2.2.2 node (List.mem_of_getElem? hx)).1
  parent := by
    intro x y c hx hy
    obtain ⟨node, hnx, rfl, hcx⟩ := h.mem_children.mp hx
    obtain ⟨other, hny, rfl, hcy⟩ := h.mem_children.mp hy
    exact (h.2.2.2 node (List.mem_of_getElem? hnx)).2 other (List.mem_of_getElem? hny) c hcx hcy

theorem wellFormed_of_checked (hengine : definition.engine.Checked)
    (hnumbered : definition.NumberedNodes) (hscoped : definition.ScopedNodes)
    (hshown : definition.ShownNodes)
    (hscopes : definition.annotationScopes = annotationScopesOf definition.engine) :
    definition.WellFormed := by
  obtain ⟨hroot, hscope, harray, honce⟩ := hscoped
  refine {
    engine := hengine.wellFormed
    ids := fun i node hi => hnumbered.id_eq hi
    root := ?_
    nodes := fun node hnode => ?_
    children_lt := fun node hnode child hc => (hnumbered.2.1 node hnode child hc).2
    ranked := ⟨_, hnumbered.numbered.ranked⟩
    uniqueParent := hnumbered.uniqueParent
    covered := hnumbered.numbered.reaches
    arrayChildren := fun node hnode hk => ?_
    scope := fun node hnode hk id hid child hchild => ?_
    controlsOnce := honce
    annotationScopes := hscopes }
  · obtain ⟨node, hnode, h⟩ := (Option.any_eq_true _ _).mp hroot
    simp only [Bool.and_eq_true, Option.isNone_iff_eq_none] at h
    exact ⟨node, hnode, h.1, h.2⟩
  · rcases hshown node hnode with ⟨generated, hg, hi⟩ | hp
    · exact .inl ⟨generated, definition.mem_generatedNodes_iff.mpr hg, hi⟩
    · exact .inr hp
  · obtain ⟨template, ht⟩ := List.length_eq_one_iff.mp (harray node hnode hk)
    obtain ⟨child, hchild, howner⟩ := (Option.any_eq_true _ _).mp
      (hscope node hnode template (by simp [ht]))
    rw [if_pos hk] at howner
    exact ⟨template, child, ht, hchild, eq_of_beq howner⟩
  · have howner := hscope node hnode id hid
    rw [hchild, if_neg hk] at howner
    exact eq_of_beq howner

end DefinitionInner

/-! ## Nodes of a definition -/

namespace DefinitionNode

/-- The root, above everything and bound to nothing. -/
def root (annotations : DataSchemaAnnotations) (children : List Nat) : DefinitionNode where
  id := 0
  kind := .autoGeneratedLayout
  semanticKind := none
  binding := none
  dataSchemaAnnotations := annotations
  creationSeed := none
  required := false
  acceptsNull := false
  choiceOptions := []
  choiceSelectable := false
  multipleChoice := false
  owningArray := none
  children

/-- The node that shows a generated one. -/
def showing (id : Nat) (owningArray : Option Nat) (generated : GeneratedNode)
    (children : List Nat) : DefinitionNode where
  id
  kind := generated.kind
  semanticKind := generated.semanticKind
  binding := some generated.binding
  dataSchemaAnnotations := generated.dataSchemaAnnotations
  creationSeed := generated.creationSeed
  required := generated.required
  acceptsNull := generated.acceptsNull
  choiceOptions := generated.choiceOptions
  choiceSelectable := generated.choiceSelectable
  multipleChoice := generated.multipleChoice
  owningArray
  children

end DefinitionNode

end Schemaform
