import Mathlib.Algebra.Order.BigOperators.Group.List
import Schemaform.Form.Tree

/-!
# Form.Size

The size of the tree of instances, counted from the form data.

* `listedIdentities`: the tree without a traversal, array by array and item by item.
* `length_instanceIdentities`, `length_repeatedItems`: `initialTreeMetrics` counts the tree.
* `initialTreeMetrics_mono`, `initialTreeMetrics_congr`: it only depends on the lengths of arrays.
-/

namespace Schemaform

def DefinitionNode.itemCount (array : DefinitionNode) (formData : Value) : Nat :=
  (array.binding.map fun binding => (Engine.arrayValues binding formData).length).getD 0

namespace DefinitionInner

variable (definition : DefinitionInner)

def arrayNodes : List DefinitionNode :=
  definition.nodes.filter fun node =>
    node.owningArray.isNone && node.semanticKind == some .homogeneousArray

def templateNodes (array : DefinitionNode) : List DefinitionNode :=
  definition.nodes.filter (·.owningArray == some array.id)

theorem initialTreeMetrics_eq (formData : Value) : definition.initialTreeMetrics formData =
    ((definition.nodes.filter (·.owningArray.isNone)).length +
      (definition.arrayNodes.map fun array =>
        array.itemCount formData * (definition.templateNodes array).length).sum,
      (definition.arrayNodes.map (·.itemCount formData)).sum) := by
  rw [← List.countP_eq_length_filter]
  simp only [templateNodes, ← List.countP_eq_length_filter]
  rfl

theorem initialTreeMetrics_mono {before after : Value}
    (h : ∀ array ∈ definition.arrayNodes, array.itemCount after ≤ array.itemCount before) :
    (definition.initialTreeMetrics after).1 ≤ (definition.initialTreeMetrics before).1 ∧
    (definition.initialTreeMetrics after).2 ≤ (definition.initialTreeMetrics before).2 := by
  simp only [initialTreeMetrics_eq]
  constructor
  · refine Nat.add_le_add_left (List.sum_le_sum fun array harray => ?_) _
    exact Nat.mul_le_mul_right _ (h array harray)
  · exact List.sum_le_sum h

/-- Equal data are counted alike. -/
theorem initialTreeMetrics_congr {before after : Value} (hwf : before.WF) (hwf' : after.WF)
    (h : jsonValuesEqual before after = true) :
    definition.initialTreeMetrics after = definition.initialTreeMetrics before := by
  have hcount (array : DefinitionNode) : array.itemCount after = array.itemCount before := by
    unfold DefinitionNode.itemCount
    cases array.binding with
    | none => rfl
    | some binding => exact (Engine.Form.length_arrayValues_congr hwf hwf' h).symm
  have hle := definition.initialTreeMetrics_mono fun array _ => (hcount array).le
  have hge := definition.initialTreeMetrics_mono fun array _ => (hcount array).ge
  exact Prod.ext (le_antisymm hle.1 hge.1) (le_antisymm hle.2 hge.2)

variable {definition}

theorem WellFormed.ids_nodup (h : definition.WellFormed) :
    (definition.nodes.map (·.id)).Nodup := by
  refine List.nodup_iff_injective_get.mpr fun i j hij => ?_
  obtain ⟨i, hi⟩ := i
  obtain ⟨j, hj⟩ := j
  rw [List.length_map] at hi hj
  simp only [List.get_eq_getElem, List.getElem_map] at hij
  rw [h.ids i _ (List.getElem?_eq_getElem hi), h.ids j _ (List.getElem?_eq_getElem hj)] at hij
  exact Fin.ext hij

theorem mem_templateNodes {array node : DefinitionNode} : node ∈ definition.templateNodes array ↔
    node ∈ definition.nodes ∧ node.owningArray = some array.id := by
  rw [templateNodes, List.mem_filter, beq_iff_eq]

theorem WellFormed.mem_arrayNodes (h : definition.WellFormed) {node : DefinitionNode} :
    node ∈ definition.arrayNodes ↔
      node ∈ definition.nodes ∧ node.semanticKind = some .homogeneousArray := by
  rw [arrayNodes, List.mem_filter, Bool.and_eq_true, beq_iff_eq]
  constructor
  · rintro ⟨hnode, _, hk⟩
    exact ⟨hnode, hk⟩
  · rintro ⟨hnode, hk⟩
    exact ⟨hnode, Option.isNone_iff_eq_none.mpr (h.array_node hnode hk).1, hk⟩

end DefinitionInner

namespace Form

variable {form : Form} {identity : InstanceIdentity}

/-! ## The tree array by array -/

def outerIdentities (form : Form) : List InstanceIdentity :=
  (form.definition.inner.nodes.filter (·.owningArray.isNone)).map fun node => form.identity node.id

def nestedIdentities (form : Form) (array : DefinitionNode) : List InstanceIdentity :=
  (form.itemsOf array.id).flatMap fun item =>
    (form.definition.inner.templateNodes array).map fun node =>
      form.itemIdentity node.id (form.item item)

def listedIdentities (form : Form) : List InstanceIdentity :=
  form.outerIdentities ++ form.definition.inner.arrayNodes.flatMap form.nestedIdentities

theorem mem_outerIdentities : identity ∈ form.outerIdentities ↔
    ∃ node ∈ form.definition.inner.nodes, node.owningArray = none ∧
      identity = form.identity node.id := by
  simp only [outerIdentities, List.mem_map, List.mem_filter, Option.isNone_iff_eq_none, and_assoc,
    eq_comm (a := identity)]

theorem mem_nestedIdentities {array : DefinitionNode} :
    identity ∈ form.nestedIdentities array ↔ ∃ item ∈ form.itemsOf array.id,
      ∃ node ∈ form.definition.inner.nodes, node.owningArray = some array.id ∧
        identity = form.itemIdentity node.id (form.item item) := by
  simp only [nestedIdentities, List.mem_flatMap, List.mem_map, DefinitionInner.mem_templateNodes,
    and_assoc, eq_comm (a := identity)]

theorem mem_listedIdentities :
    identity ∈ form.listedIdentities ↔ (form.node identity).isSome := by
  rw [resolves_iff, listedIdentities, List.mem_append, mem_outerIdentities, List.mem_flatMap]
  constructor
  · rintro (⟨d, hd, howner, rfl⟩ | ⟨array, _, hmem⟩)
    · exact ⟨rfl, d, form.inner_wf.getElem?_id hd, howner⟩
    · obtain ⟨i, hi, d, hd, howner, rfl⟩ := mem_nestedIdentities.mp hmem
      exact ⟨rfl, d, form.inner_wf.getElem?_id hd, rfl, array.id, howner, hi⟩
  · obtain ⟨formId, node, item⟩ := identity
    rintro ⟨rfl, d, hd, h⟩
    have hmem := List.mem_of_getElem? hd
    obtain rfl := form.inner_wf.ids node d hd
    cases item with
    | none => exact .inl ⟨d, hmem, h, rfl⟩
    | some item =>
      obtain ⟨hitem, owner, howner, hi⟩ := h
      obtain ⟨array, harray, hk⟩ := form.inner_wf.owner_array hd howner
      obtain rfl := form.inner_wf.ids owner array harray
      refine .inr ⟨array, form.inner_wf.mem_arrayNodes.mpr ⟨List.mem_of_getElem? harray, hk⟩, ?_⟩
      exact mem_nestedIdentities.mpr ⟨item.localId, hi, d, hmem, howner, by rw [← item_eq hitem]; rfl⟩

theorem nestedIdentities_nodup (hinv : form.Inv) (array : DefinitionNode) :
    (form.nestedIdentities array).Nodup := by
  refine List.nodup_flatMap.mpr ⟨fun item _ => ?_, ?_⟩
  · have hids : ((form.definition.inner.templateNodes array).map (·.id)).Nodup :=
      form.inner_wf.ids_nodup.sublist (List.filter_sublist.map _)
    have hnd := hids.map (f := fun id => form.itemIdentity id (form.item item))
      fun a b heq => congrArg InstanceIdentity.node heq
    rwa [List.map_map] at hnd
  · refine (itemsOf_nodup hinv array.id).imp fun hne => ?_
    intro identity hmem hmem'
    obtain ⟨_, _, rfl⟩ := List.mem_map.mp hmem
    obtain ⟨_, _, heq⟩ := List.mem_map.mp hmem'
    exact hne (congrArg (fun i => (i.item.map (·.localId)).getD 0) heq).symm

theorem listedIdentities_nodup (hinv : form.Inv) : form.listedIdentities.Nodup := by
  have houter : form.outerIdentities.Nodup := by
    have hids : ((form.definition.inner.nodes.filter (·.owningArray.isNone)).map (·.id)).Nodup :=
      form.inner_wf.ids_nodup.sublist (List.filter_sublist.map _)
    have hnd := hids.map (f := form.identity) fun a b heq => congrArg InstanceIdentity.node heq
    rwa [List.map_map] at hnd
  refine List.nodup_append'.mpr ⟨houter, List.nodup_flatMap.mpr
    ⟨fun array _ => nestedIdentities_nodup hinv array, ?_⟩, ?_⟩
  · have hids : (form.definition.inner.arrayNodes.map (·.id)).Nodup :=
      form.inner_wf.ids_nodup.sublist (List.filter_sublist.map _)
    refine (List.pairwise_map.mp hids).imp fun hne => ?_
    intro identity hmem hmem'
    obtain ⟨_, _, node, hnode, howner, rfl⟩ := mem_nestedIdentities.mp hmem
    obtain ⟨_, _, node', hnode', howner', heq⟩ := mem_nestedIdentities.mp hmem'
    have hid : node.id = node'.id := congrArg InstanceIdentity.node heq
    have hget := form.inner_wf.getElem?_id hnode
    rw [hid, form.inner_wf.getElem?_id hnode'] at hget
    obtain rfl := Option.some.inj hget
    exact hne (Option.some.inj (howner.symm.trans howner'))
  · intro identity hmem hmem'
    obtain ⟨_, _, _, rfl⟩ := mem_outerIdentities.mp hmem
    obtain ⟨_, _, hmem'⟩ := List.mem_flatMap.mp hmem'
    obtain ⟨_, _, _, _, _, heq⟩ := mem_nestedIdentities.mp hmem'
    cases congrArg InstanceIdentity.item heq

theorem instanceIdentities_perm (hinv : form.Inv) :
    form.instanceIdentities.Perm form.listedIdentities :=
  (List.perm_ext_iff_of_nodup (instanceIdentities_nodup hinv) (listedIdentities_nodup hinv)).mpr
    fun _ => (mem_instanceIdentities hinv).trans mem_listedIdentities.symm

/-! ## Items and values -/

/-- An array shows one item for each value. -/
theorem length_itemsOf (hinv : form.Inv) {array : DefinitionNode}
    (h : array ∈ form.definition.inner.arrayNodes) :
    (form.itemsOf array.id).length = array.itemCount form.formData := by
  obtain ⟨hnode, hk⟩ := form.inner_wf.mem_arrayNodes.mp h
  obtain ⟨_, definition, hdefinition, hb, _⟩ := form.inner_wf.array_node hnode hk
  obtain ⟨state, hstate, rfl⟩ : ∃ state ∈ form.engine.arrays, state.definition = definition := by
    rw [← hinv.shaped.arrays] at hdefinition
    exact List.mem_map.mp hdefinition
  unfold itemsOf DefinitionNode.itemCount
  rw [form.inner_wf.getElem?_id hnode, Option.bind_some, hb, Option.bind_some, Option.map_some,
    Option.getD_some, Engine.Form.arrayItemIdentities,
    hinv.shaped.array_eq form.engine_wf hstate, Option.map_some, Option.getD_some]
  unfold Engine.ArrayState.identities
  rw [List.length_map]
  exact (hinv.coherent.arrays state hstate).length_eq

/-- The children of the array nodes of the tree: the root of every item. -/
def repeatedItems (form : Form) : List InstanceIdentity :=
  (form.instanceIdentities.filter fun identity =>
    (form.node identity).any (·.definition.semanticKind == some .homogeneousArray)).flatMap
      form.childrenOf

/-- `initialTreeMetrics` counts the nodes of the tree. -/
theorem length_instanceIdentities (hinv : form.Inv) : form.instanceIdentities.length =
    (form.definition.inner.initialTreeMetrics form.formData).1 := by
  rw [(instanceIdentities_perm hinv).length_eq, DefinitionInner.initialTreeMetrics_eq,
    listedIdentities, List.length_append, List.length_flatMap, outerIdentities, List.length_map]
  congr 2
  refine List.map_congr_left fun array harray => ?_
  rw [nestedIdentities, List.length_flatMap]
  simp only [List.length_map]
  rw [List.map_const', List.sum_replicate_nat, length_itemsOf hinv harray]

theorem arrayIdentities_perm (hinv : form.Inv) : (form.instanceIdentities.filter fun identity =>
      (form.node identity).any (·.definition.semanticKind == some .homogeneousArray)).Perm
    (form.definition.inner.arrayNodes.map fun array => form.identity array.id) := by
  have hids : (form.definition.inner.arrayNodes.map (·.id)).Nodup :=
    form.inner_wf.ids_nodup.sublist (List.filter_sublist.map _)
  have hnd := hids.map (f := form.identity) fun a b heq => congrArg InstanceIdentity.node heq
  rw [List.map_map] at hnd
  refine (List.perm_ext_iff_of_nodup ((instanceIdentities_nodup hinv).filter _) hnd).mpr
    fun identity => ?_
  rw [List.mem_filter, mem_instanceIdentities hinv, Option.any_eq_true, List.mem_map]
  constructor
  · rintro ⟨hr, view, hview, hk⟩
    obtain ⟨hform, _, _, hd, _⟩ := node_eq_some.mp hview
    rw [beq_iff_eq] at hk
    refine ⟨view.definition, form.inner_wf.mem_arrayNodes.mpr ⟨List.mem_of_getElem? hd, hk⟩, ?_⟩
    have hitem := array_item_none hr hd hk
    rw [Function.comp_apply, form.inner_wf.ids _ _ hd]
    obtain ⟨formId, node, item⟩ := identity
    cases hform
    cases hitem
    rfl
  · rintro ⟨array, harray, rfl⟩
    obtain ⟨hnode, hk⟩ := form.inner_wf.mem_arrayNodes.mp harray
    have hd := form.inner_wf.getElem?_id hnode
    have hr : (form.node (form.identity array.id)).isSome :=
      resolves_iff.mpr ⟨rfl, array, hd, (form.inner_wf.array_node hnode hk).1⟩
    exact ⟨hr, _, node_of_resolves hr hd, beq_iff_eq.mpr hk⟩

/-- and the items in it. -/
theorem length_repeatedItems (hinv : form.Inv) : form.repeatedItems.length =
    (form.definition.inner.initialTreeMetrics form.formData).2 := by
  rw [repeatedItems, List.length_flatMap, ((arrayIdentities_perm hinv).map _).sum_eq, List.map_map,
    DefinitionInner.initialTreeMetrics_eq]
  congr 1
  refine List.map_congr_left fun array harray => ?_
  obtain ⟨hnode, hk⟩ := form.inner_wf.mem_arrayNodes.mp harray
  have hd := form.inner_wf.getElem?_id hnode
  have hr : (form.node (form.identity array.id)).isSome :=
    resolves_iff.mpr ⟨rfl, array, hd, (form.inner_wf.array_node hnode hk).1⟩
  obtain ⟨template, _, hchildren⟩ := childrenOf_array hr hd hk
  rw [Function.comp_apply, hchildren, List.length_map, ← length_itemsOf hinv harray]
  rfl

end Form

end Schemaform
