import Schemaform.Compile.AuthoredSpec

/-!
# Compile.DefinitionTree

The nodes of a definition form one tree with scopes.

* `DefinitionTree`: ids, one tree from node zero, authored ids, item templates, bindings.
* `Segment.definitionTree_iff`: a segment from zero is one, if its scopes take no binding twice.
* `definition_tree_iff`: compiled nodes are one exactly when no authored item template shows the
  item object below another node.
-/

namespace Schemaform

open Ui

def childIds (nodes : List CompiledNode) (i : Nat) : List Nat :=
  Forest.Piece.childrenOf (nodes.map (·.children)) i

structure DefinitionTree (nodes : List CompiledNode) : Prop where
  ids : ∀ (i : Nat) (node : CompiledNode), nodes[i]? = some node → node.id = i
  once : (0 :: nodes.flatMap (·.children)).Perm (List.range nodes.length)
  tree : ∀ i < nodes.length, Forest.Reaches (childIds nodes) 0 i
  authoredIds : (nodes.filterMap (·.authoredId)).Nodup
  templates : ∀ (i : Nat) (array : CompiledNode), nodes[i]? = some array →
    array.semanticKind = some .homogeneousArray →
      ∃ template ∈ array.children, ∀ (j : Nat) (node : CompiledNode), nodes[j]? = some node →
        (node.owningArray = some i ↔ Forest.Reaches (childIds nodes) template j)
  scopes : nodes.Pairwise fun m n =>
    m.owningArray = n.owningArray → m.bindsValue = true → n.bindsValue = true →
      m.binding ≠ n.binding

/-- Two nodes of one scope take different bindings, in the outer scope and in the inner ones. -/
theorem scopes_iff {test : CompiledNode → Bool} {nodes : List CompiledNode} :
    (nodes.Pairwise fun m n => m.owningArray = n.owningArray → test m = true → test n = true →
      m.binding ≠ n.binding) ↔
      (scopeBindings test none nodes).Nodup ∧ (innerPlaces test none nodes).Nodup := by
  rw [scopeBindings, innerPlaces, List.Nodup, List.Nodup, List.pairwise_map, List.pairwise_map,
    List.pairwise_filter, List.pairwise_filter, ← List.pairwise_and_iff]
  refine List.Pairwise.iff fun m n => ?_
  simp only [Bool.and_eq_true, beq_iff_eq, bne_iff_ne, ne_eq, Prod.mk.injEq, not_and]
  constructor
  · intro h
    refine ⟨fun hm hn => h (hm.2.trans hn.2.symm) hm.1 hn.1, fun hm hn heq => h heq hm.1 hn.1⟩
  · rintro ⟨houter, hinner⟩ heq hm hn
    by_cases hnone : m.owningArray = none
    · exact houter ⟨hm, hnone⟩ ⟨hn, heq.symm.trans hnone⟩
    · exact hinner ⟨hm, hnone⟩ ⟨hn, heq ▸ hnone⟩ heq

namespace Segment

variable {nodes : List CompiledNode}

section Zero

variable (h : Segment none 0 nodes [0])
include h

theorem get {n : CompiledNode} (hn : n ∈ nodes) : nodes[n.id]? = some n :=
  get_id [] h hn

theorem root_owner {root : CompiledNode} (hroot : nodes[0]? = some root) :
    root.owningArray = none := by
  obtain ⟨n, hn, hid, howner⟩ := h.roots 0 (List.mem_singleton_self 0)
  have hget := h.get hn
  rw [hid] at hget
  obtain rfl := Option.some.inj (hroot.symm.trans hget)
  exact howner

theorem child_owner {i c : Nat} {node child : CompiledNode} (hnode : nodes[i]? = some node)
    (hchild : nodes[c]? = some child) (hc : c ∈ childIds nodes i) :
    child.owningArray = node.childOwner := by
  have hmem : c ∈ node.children := by
    simpa [childIds, Forest.Piece.childrenOf, hnode] using hc
  obtain ⟨m, hm, hid, howner⟩ := h.children node (List.mem_of_getElem? hnode) c hmem
  have hget := h.get hm
  rw [hid] at hget
  obtain rfl := Option.some.inj (hchild.symm.trans hget)
  exact howner

theorem exists_child {i c : Nat} (hc : c ∈ childIds nodes i) :
    ∃ node child, nodes[i]? = some node ∧ nodes[c]? = some child := by
  obtain ⟨cell, hcell, hmem⟩ := Forest.Piece.mem_childrenOf hc
  rw [List.getElem?_map, Option.map_eq_some_iff] at hcell
  obtain ⟨node, hnode, rfl⟩ := hcell
  obtain ⟨m, hm, hid, _⟩ := h.children node (List.mem_of_getElem? hnode) c hmem
  exact ⟨node, m, hnode, hid ▸ h.get hm⟩

/-- The nodes owned by an array are those below its child. -/
theorem template_iff {i template : Nat} {array : CompiledNode} (harray : nodes[i]? = some array)
    (hkind : array.semanticKind = some .homogeneousArray) (hchildren : array.children = [template])
    {j : Nat} {node : CompiledNode} (hnode : nodes[j]? = some node) :
    node.owningArray = some i ↔ Forest.Reaches (childIds nodes) template j := by
  have hi : array.id = i := by simpa using h.id_eq harray
  have htemplate : template ∈ childIds nodes i := by
    simp [childIds, Forest.Piece.childrenOf, harray, hchildren]
  constructor
  · intro howner
    have hlt := (List.getElem?_eq_some_iff.mp hnode).1
    have hreach : Forest.Reaches (childIds nodes) 0 j :=
      h.piece.reaches (by rwa [List.length_map])
    induction hreach generalizing node with
    | refl => cases (h.root_owner hnode).symm.trans howner
    | @tail y z _ hyz ih =>
      obtain ⟨parent, _, hparent, _⟩ := h.exists_child hyz
      have hchild := h.child_owner hparent hnode hyz
      rw [howner] at hchild
      by_cases hparentKind : parent.semanticKind = some .homogeneousArray
      · rw [CompiledNode.childOwner, if_pos hparentKind, h.id_eq hparent, Nat.zero_add] at hchild
        obtain rfl := Option.some.inj hchild
        obtain rfl := Option.some.inj (harray.symm.trans hparent)
        have hz : z ∈ array.children := by
          simpa [childIds, Forest.Piece.childrenOf, harray] using hyz
        rw [hchildren, List.mem_singleton] at hz
        rw [hz]
      · rw [CompiledNode.childOwner, if_neg hparentKind] at hchild
        exact (ih hparent hchild.symm (List.getElem?_eq_some_iff.mp hparent).1).tail hyz
  · intro hreach
    induction hreach generalizing node with
    | refl =>
      rw [h.child_owner harray hnode htemplate, CompiledNode.childOwner, if_pos hkind, hi]
    | @tail y z _ hyz ih =>
      obtain ⟨parent, _, hparent, _⟩ := h.exists_child hyz
      have howner := ih hparent
      rw [h.child_owner hparent hnode hyz, CompiledNode.childOwner, if_neg, howner]
      intro hparentKind
      cases (h.arrays parent (List.mem_of_getElem? hparent) hparentKind).1.symm.trans howner

theorem definitionTree_iff (hids : (nodes.filterMap (·.authoredId)).Nodup) :
    DefinitionTree nodes ↔ (scopeBindings (·.bindsValue) none nodes).Nodup ∧
      (innerPlaces (·.bindsValue) none nodes).Nodup := by
  refine ⟨fun htree => scopes_iff.mp htree.scopes, fun hscopes => ?_⟩
  refine ⟨?_, ?_, ?_, hids, ?_, scopes_iff.mpr hscopes⟩
  · intro i node hnode
    simpa using h.id_eq hnode
  · have hcover := h.piece.cover
    rw [List.length_map, ← List.range_eq_range', ← List.flatMap_def] at hcover
    exact hcover
  · intro i hi
    exact h.piece.reaches (by rwa [List.length_map])
  · intro i array harray hkind
    obtain ⟨template, hchildren⟩ :=
      List.length_eq_one_iff.mp (h.arrays array (List.mem_of_getElem? harray) hkind).2
    exact ⟨template, hchildren ▸ List.mem_singleton_self template,
      fun j node hnode => h.template_iff harray hkind hchildren hnode⟩

end Zero

end Segment

/-! ## Definitions -/

variable {generated : List GeneratedNode}

/-- The root node above what hangs below it. -/
def rootAbove (annotations : DataSchemaAnnotations) (roots : List Nat) : CompiledNode :=
  { rootNode annotations with children := roots }

/-- The nodes of a definition: the root, and what compiles below it. -/
def RootCompiled (generated : List GeneratedNode) (annotations : DataSchemaAnnotations)
    (roots : List Nat) (added : List CompiledNode) (once : Bool) : Prop :=
  ∃ state shows,
    Compiled generated .root ⟨[], [], [rootNode annotations]⟩ added roots state once shows

theorem Compiled.root {annotations : DataSchemaAnnotations} {added : List CompiledNode}
    {roots : List Nat} {state : CompileState} {once shows : Bool}
    (h : Compiled generated .root ⟨[], [], [rootNode annotations]⟩ added roots state once shows) :
    (state.setChildren 0 roots).nodes = rootAbove annotations roots :: added ∧
      RootCompiled generated annotations roots added once := by
  refine ⟨?_, state, shows, h⟩
  rw [CompileState.setChildren, h.appended.nodes]
  rfl

namespace RootCompiled

variable {annotations : DataSchemaAnnotations} {added : List CompiledNode} {roots : List Nat}
  {once : Bool} (h : RootCompiled generated annotations roots added once)
include h

theorem segment : Segment none 0 (rootAbove annotations roots :: added) [0] := by
  obtain ⟨_, _, hcompiled⟩ := h
  exact hcompiled.appended.segment.above rfl rfl rfl rfl (fun hkind => by cases hkind) (.inl rfl)

theorem scope_nodup : (scopeBindings (·.bindsValue) none added).Nodup := by
  obtain ⟨_, _, hcompiled⟩ := h
  exact hcompiled.appended.scope_nodup List.nodup_nil

theorem definitionTree_iff :
    DefinitionTree (rootAbove annotations roots :: added) ↔ once = true := by
  have hsegment := h.segment
  have hscope := h.scope_nodup
  obtain ⟨_, _, hcompiled⟩ := h
  have hids : ((rootAbove annotations roots :: added).filterMap (·.authoredId)).Nodup := by
    have hnodup := hcompiled.appended.authoredIds.nodup_iff.mp
      (hcompiled.appended.authoredIds_nodup List.nodup_nil)
    rw [List.append_nil] at hnodup
    exact hnodup
  have hbinds : (rootAbove annotations roots).bindsValue = false := rfl
  have hinner : innerPlaces (·.bindsValue) none [rootAbove annotations roots] = [] :=
    innerPlaces_singleton rfl
  rw [hsegment.definitionTree_iff hids, ← List.singleton_append, scopeBindings_append,
    scopeBindings_singleton, hbinds, innerPlaces_append, hinner]
  exact (and_iff_right hscope).trans hcompiled.inner

theorem contents : ∀ n ∈ added,
    Content generated .root (rootAbove annotations roots :: added) n := by
  obtain ⟨_, _, hcompiled⟩ := h
  exact fun n hn => (hcompiled.contents n hn).mono (List.subset_cons_self _ _)

theorem controls_pairwise : (rootAbove annotations roots :: added).Pairwise fun m n =>
    m.owningArray = n.owningArray → m.isControl = true → n.isControl = true →
      m.binding ≠ n.binding := by
  have hscope := h.scope_nodup
  obtain ⟨_, _, hcompiled⟩ := h
  have hcontrol : (rootAbove annotations roots).isControl = false := rfl
  have hinner : innerPlaces (·.isControl) none [rootAbove annotations roots] = [] :=
    innerPlaces_singleton rfl
  rw [scopes_iff, ← List.singleton_append, scopeBindings_append, scopeBindings_singleton, hcontrol,
    innerPlaces_append, hinner]
  exact ⟨hscope.sublist (scopeBindings_controls _ _), hcompiled.controls⟩

/-- No control is shown twice in a scope. -/
theorem control_unique {m n : CompiledNode} (hm : m ∈ rootAbove annotations roots :: added)
    (hn : n ∈ rootAbove annotations roots :: added) (howner : m.owningArray = n.owningArray)
    (hmcontrol : m.isControl = true) (hncontrol : n.isControl = true)
    (hbinding : m.binding = n.binding) : m = n := by
  have : Std.Symm fun m n : CompiledNode => m.owningArray = n.owningArray → m.isControl = true →
      n.isControl = true → m.binding ≠ n.binding :=
    ⟨fun m n hmn howner hn hm heq => hmn howner.symm hm hn heq.symm⟩
  by_contra hne
  exact h.controls_pairwise.forall hm hn hne howner hmcontrol hncontrol hbinding

end RootCompiled

theorem compileNodes_compiled {engine : Engine.FormDefinition}
    (hf : GeneratedForest (generatedNodes engine)) {uiSchema : Option Element}
    {nodes : List CompiledNode} (h : compileNodes uiSchema engine = .ok nodes) :
    ∃ roots added, nodes = rootAbove engine.rootAnnotations roots :: added ∧
      RootCompiled (generatedNodes engine) engine.rootAnnotations roots added
        (uiSchema.all Element.showsItemsOnce) := by
  unfold compileNodes at h
  cases uiSchema with
  | none =>
    obtain ⟨⟨roots, state⟩, hregion, h⟩ := bind_eq_ok.mp h
    obtain rfl := Except.ok.inj h
    obtain ⟨hnamed, hdirect⟩ :=
      directGeneratedProperties_named (generatedNodes engine) .root []
    have hrooted := rootAutoRoots_rooted hf hnamed.snd_nodup fun i hi => by
      obtain ⟨p, hp, rfl⟩ := List.mem_map.mp hi
      exact hdirect p hp
    obtain ⟨added, hcompiled⟩ := root_region_compiled hrooted hregion false
    exact ⟨roots, added, hcompiled.root⟩
  | some root =>
    obtain ⟨⟨roots, state⟩, hroot, h⟩ := bind_eq_ok.mp h
    obtain rfl := Except.ok.inj h
    obtain ⟨added, hcompiled, _⟩ :=
      compileAuthoredElement_compiled hf (.inl rfl) "/root" root hroot
    exact ⟨roots, added, hcompiled.root⟩

/-- For every data schema that projects and every layout that is accepted. -/
theorem definition_tree_iff {σ : Type} (reader : Engine.SchemaReader σ) (maxTraversal : Nat)
    {engine : Engine.FormDefinition} (hproject : reader.compileGraph maxTraversal = .ok engine)
    (uiSchema : Option Element) {nodes : List CompiledNode}
    (hcompile : compileNodes uiSchema engine = .ok nodes) :
    DefinitionTree nodes ↔ uiSchema.all Element.showsItemsOnce = true := by
  have hf := generatedNodes_forest (reader.compileGraph_projected hproject)
  obtain ⟨roots, added, rfl, hroot⟩ := compileNodes_compiled hf hcompile
  exact hroot.definitionTree_iff

/-! ## People -/

/-- An array of objects with a name: `true` reads the root, `false` an item. -/
def peopleReader : Engine.SchemaReader Bool where
  root := .ok (0, ⟨{}, some true, false⟩)
  hasProperties _ := true
  propertyNames
    | true => ["people"]
    | false => ["name"]
  isExplicitlyClosedObject _ := false
  property
    | true, _ => .ok (0, ⟨{}, false, .array ⟨none, none, false, .ok (0, ⟨{}, .object false⟩)⟩⟩)
    | false, _ => .ok (0, ⟨{}, true, .scalar .string false⟩)

def peopleEngine : Engine.FormDefinition :=
  ⟨[], [], [⟨["people"], none, {}, false, .array [], none, none, false,
    ⟨[⟨["name"], some [], .string, [], false, {}, some (.string ""), true⟩],
      [⟨[], none, {}, true, .object []⟩], .object []⟩⟩], [], {}⟩

theorem peopleReader_compileGraph : peopleReader.compileGraph 10 = .ok peopleEngine := by
  decide +kernel

def itemAuto : Element := .auto ⟨{}, ⟨.itemTemplate, []⟩, {}⟩

/-- The people with a template. -/
def peopleUi (template : Element) : Element :=
  .control ⟨{}, ⟨.root, ["people"]⟩, none⟩ (some template)

def peopleNodes (template : Element) : List CompiledNode :=
  ((compileNodes (some (peopleUi template)) peopleEngine).toOption).getD []

theorem definition_tree_people :
    DefinitionTree (peopleNodes itemAuto) ↔ (peopleUi itemAuto).showsItemsOnce = true := by
  have hcompile : compileNodes (some (peopleUi itemAuto)) peopleEngine =
      .ok (peopleNodes itemAuto) := by decide +kernel
  exact definition_tree_iff peopleReader 10 peopleReader_compileGraph
    (some (peopleUi itemAuto)) hcompile

/-- The item object shown in a stack, and again around the stack. -/
theorem definition_tree_stacked :
    peopleReader.compileGraph 10 = .ok peopleEngine ∧
      compileNodes (some (peopleUi (.stack {} [itemAuto]))) peopleEngine =
        .ok (peopleNodes (.stack {} [itemAuto])) ∧
      ¬ DefinitionTree (peopleNodes (.stack {} [itemAuto])) := by
  refine ⟨peopleReader_compileGraph, by decide +kernel, fun htree => ?_⟩
  have hscopes := htree.scopes
  revert hscopes
  decide +kernel

end Schemaform
