import Schemaform.Form.LifecycleSpec

/-!
# Form.Tree

The tree of instances of a form.

* `resolves_iff`: the identities that stand for something, by the items of their array.
* `mem_instanceIdentities`, `instanceIdentities_nodup`: the traversal lists exactly these, once.
* `mem_itemSubtreeIdentities`: the subtree of an item is what resolves in it.
-/

namespace Schemaform

namespace DefinitionInner

variable {definition : DefinitionInner}

/-- What an item template is made of hangs below its array. -/
theorem WellFormed.mem_children (h : definition.WellFormed) {x c : Nat} :
    c ∈ definition.children x ↔ ∃ node, definition.nodes[x]? = some node ∧ c ∈ node.children := by
  unfold children
  rw [h.node_eq]
  cases definition.nodes[x]? <;> simp

theorem WellFormed.children_eq (h : definition.WellFormed) {x : Nat} {node : DefinitionNode}
    (hx : definition.nodes[x]? = some node) : definition.children x = node.children := by
  unfold children
  rw [h.node_eq, hx]
  rfl

/-- Only generated arrays are arrays, and they are in no item template. -/
theorem WellFormed.array_node (h : definition.WellFormed) {node : DefinitionNode}
    (hnode : node ∈ definition.nodes) (hk : node.semanticKind = some .homogeneousArray) :
    node.owningArray = none ∧ ∃ array ∈ definition.engine.arrays,
      node.binding = some array.binding ∧ definition.Instantiates node (generatedArray array) := by
  rcases h.nodes node hnode with ⟨g, hg, hinst⟩ | hpres
  · rw [hinst.semanticKind] at hk
    rcases mem_generatedNodes.mp hg with
      ⟨o, _, rfl⟩ | ⟨c, _, rfl⟩ | ⟨a, ha, rfl | ⟨o, _, rfl⟩ | ⟨c, _, rfl⟩⟩ | ⟨u, _, rfl⟩
    · cases hk
    · simp only [generatedControl, controlSemanticKind] at hk
      cases hkind : c.kind <;> rw [hkind] at hk <;> cases hk
    · refine ⟨?_, a, ha, hinst.binding, hinst⟩
      exact Option.isSome_eq_false_iff.mp hinst.owner |> Option.isNone_iff_eq_none.mp
    · cases hk
    · simp only [generatedControl, controlSemanticKind] at hk
      cases hkind : c.kind <;> rw [hkind] at hk <;> cases hk
    · cases hk
  · rw [hpres.semanticKind] at hk
    cases hk

/-- Parent and child stand in one scope, unless the parent is an array. -/
theorem WellFormed.child_scope (h : definition.WellFormed) {x c : Nat} {node child : DefinitionNode}
    (hx : definition.nodes[x]? = some node) (hc : definition.nodes[c]? = some child)
    (hmem : c ∈ node.children) :
    (node.semanticKind = some .homogeneousArray ∧ child.owningArray = some x ∧
      node.children = [c]) ∨
    node.semanticKind ≠ some .homogeneousArray ∧ child.owningArray = node.owningArray := by
  have hnode := List.mem_of_getElem? hx
  by_cases hk : node.semanticKind = some .homogeneousArray
  · obtain ⟨template, child', hchildren, ht, howner⟩ := h.arrayChildren node hnode hk
    rw [hchildren, List.mem_singleton] at hmem
    subst hmem
    rw [hc] at ht
    cases ht
    exact .inl ⟨hk, h.ids x node hx ▸ howner, hchildren⟩
  · exact .inr ⟨hk, h.scope node hnode hk c hmem child hc⟩

theorem WellFormed.child_exists (h : definition.WellFormed) {x c : Nat} {node : DefinitionNode}
    (hx : definition.nodes[x]? = some node) (hmem : c ∈ node.children) :
    ∃ child, definition.nodes[c]? = some child :=
  ⟨_, List.getElem?_eq_getElem (h.children_lt node (List.mem_of_getElem? hx) c hmem)⟩

/-- The template of an array node. -/
theorem WellFormed.arrayTemplate_eq (h : definition.WellFormed) {x : Nat} {node : DefinitionNode}
    (hx : definition.nodes[x]? = some node) (hk : node.semanticKind = some .homogeneousArray) :
    ∃ template child, definition.arrayTemplate x = some template ∧ node.children = [template] ∧
      definition.nodes[template]? = some child ∧ child.owningArray = some x := by
  obtain ⟨template, child, hchildren, ht, howner⟩ :=
    h.arrayChildren node (List.mem_of_getElem? hx) hk
  rw [h.ids x node hx] at howner
  refine ⟨template, child, ?_, hchildren, ht, howner⟩
  rw [arrayTemplate, hx, Option.bind_some, hchildren, List.find?_cons_of_pos]
  rw [ht, Option.any_some, howner]
  exact beq_self_eq_true _

/-- An item template is everything below the only child of its array. -/
theorem WellFormed.reaches_template (h : definition.WellFormed) {array template i : Nat}
    (ht : definition.arrayTemplate array = some template) {node : DefinitionNode}
    (hnode : definition.nodes[array]? = some node)
    (hk : node.semanticKind = some .homogeneousArray) :
    Forest.Reaches definition.children template i ↔
      ∃ d, definition.nodes[i]? = some d ∧ d.owningArray = some array := by
  obtain ⟨template', child, ht', hchildren, htemplate, howner⟩ := h.arrayTemplate_eq hnode hk
  obtain rfl := Option.some.inj (ht.symm.trans ht')
  constructor
  · intro hr
    induction hr with
    | refl => exact ⟨child, htemplate, howner⟩
    | tail _ hc ih =>
      obtain ⟨d, hd, hdowner⟩ := ih
      obtain ⟨d', hd', hmem⟩ := h.mem_children.mp hc
      obtain rfl := Option.some.inj (hd.symm.trans hd')
      obtain ⟨e, he⟩ := h.child_exists hd hmem
      rcases h.child_scope hd he hmem with ⟨hka, _⟩ | ⟨_, hscope⟩
      · rw [(h.array_node (List.mem_of_getElem? hd) hka).1] at hdowner
        cases hdowner
      · exact ⟨e, he, hscope.trans hdowner⟩
  · rintro ⟨d, hd, hdowner⟩
    have hroot := h.covered i (List.getElem?_eq_some_iff.mp hd).1
    induction hroot generalizing d with
    | refl =>
      obtain ⟨r, hr, hrowner, _⟩ := h.root
      rw [hr] at hd
      cases hd
      rw [hrowner] at hdowner
      cases hdowner
    | @tail w c _ hc ih =>
      obtain ⟨e, he, hmem⟩ := h.mem_children.mp hc
      rcases h.child_scope he hd hmem with ⟨_, hw, hsingle⟩ | ⟨_, hscope⟩
      · obtain rfl := Option.some.inj (hw.symm.trans hdowner)
        obtain rfl := Option.some.inj (hnode.symm.trans he)
        rw [hchildren] at hsingle
        cases hsingle
        exact .refl
      · exact .tail (ih e he (hscope.symm.trans hdowner)) hc

/-- Item templates belong to array nodes. -/
theorem WellFormed.owner_array (h : definition.WellFormed) {i owner : Nat} {d : DefinitionNode}
    (hd : definition.nodes[i]? = some d) (ho : d.owningArray = some owner) :
    ∃ node, definition.nodes[owner]? = some node ∧
      node.semanticKind = some .homogeneousArray := by
  have hroot := h.covered i (List.getElem?_eq_some_iff.mp hd).1
  induction hroot generalizing d with
  | refl =>
    obtain ⟨r, hr, hrowner, _⟩ := h.root
    rw [hr] at hd
    cases hd
    rw [hrowner] at ho
    cases ho
  | tail _ hc ih =>
    obtain ⟨e, he, hmem⟩ := h.mem_children.mp hc
    rcases h.child_scope he hd hmem with ⟨hk, hw, _⟩ | ⟨_, hscope⟩
    · obtain rfl := Option.some.inj (hw.symm.trans ho)
      exact ⟨e, he, hk⟩
    · exact ih he (hscope.symm.trans ho)

/-- An array is shown at one node. -/
theorem WellFormed.array_once (h : definition.WellFormed) {x y : Nat} {node other : DefinitionNode}
    (hx : definition.nodes[x]? = some node) (hy : definition.nodes[y]? = some other)
    (hk : node.semanticKind = some .homogeneousArray)
    (hk' : other.semanticKind = some .homogeneousArray) (hb : node.binding = other.binding) :
    x = y := by
  have hnode := List.mem_of_getElem? hx
  have hother := List.mem_of_getElem? hy
  obtain ⟨ho, _, _, _, hinst⟩ := h.array_node hnode hk
  obtain ⟨ho', _, _, _, hinst'⟩ := h.array_node hother hk'
  have hid := h.controlsOnce node hnode other hother hinst.kind hinst'.kind (ho.trans ho'.symm) hb
  rwa [h.ids x node hx, h.ids y other hy] at hid

end DefinitionInner

namespace Form

variable {form : Form} {identity : InstanceIdentity}

/-! ## Identities that resolve -/

/-- Items of the array an owning node shows. -/
def itemsOf (form : Form) (owner : Nat) : List Nat :=
  (((form.definition.inner.nodes[owner]?).bind (·.binding)).bind
    form.engine.arrayItemIdentities).getD []

theorem arrayItemBinding_isSome {engine : Engine.Form} {binding : Pointer} {identity : Nat} :
    (engine.arrayItemBinding binding identity).isSome ↔
      identity ∈ (engine.arrayItemIdentities binding).getD [] := by
  simp only [Engine.Form.arrayItemBinding, Engine.Form.arrayItemIdentities, Option.bind_eq_bind]
  cases engine.array binding with
  | none => simp
  | some array => simp [Engine.ArrayState.identities, Option.isSome_bind]

theorem itemBinding_isSome {template : Nat} {item : ItemIdentity} :
    (form.itemBinding template item).isSome ↔ ∃ d owner,
      form.definition.inner.nodes[template]? = some d ∧ d.owningArray = some owner ∧
      item.localId ∈ form.itemsOf owner := by
  unfold itemBinding DefinitionInner.arrayForTemplate
  cases ht : form.definition.inner.nodes[template]? with
  | none => simp
  | some d =>
    cases howner : d.owningArray with
    | none => simp [howner]
    | some owner =>
      have hrhs : (∃ d' owner', some d = some d' ∧ d'.owningArray = some owner' ∧
          item.localId ∈ form.itemsOf owner') ↔ item.localId ∈ form.itemsOf owner := by
        constructor
        · rintro ⟨_, owner', hd, howner', hmem⟩
          cases hd
          obtain rfl := Option.some.inj (howner.symm.trans howner')
          exact hmem
        · intro hmem
          exact ⟨d, owner, rfl, howner, hmem⟩
      rw [hrhs]
      unfold itemsOf
      simp only [Option.bind_eq_bind, Option.bind_some, howner, form.inner_wf.node_eq]
      cases form.definition.inner.nodes[owner]? with
      | none => simp
      | some array =>
        rw [Option.bind_some, Option.bind_some]
        cases array.binding with
        | none => simp
        | some binding => exact arrayItemBinding_isSome

theorem resolves_iff : (form.node identity).isSome ↔ identity.form = form.id ∧
    ∃ d, form.definition.inner.nodes[identity.node]? = some d ∧
      match identity.item with
      | none => d.owningArray = none
      | some item => item.form = form.id ∧ ∃ owner, d.owningArray = some owner ∧
        item.localId ∈ form.itemsOf owner := by
  rw [Option.isSome_iff_exists]
  constructor
  · rintro ⟨node, hnode⟩
    obtain ⟨hform, _, _, hd, hitem⟩ := node_eq_some.mp hnode
    refine ⟨hform, node.definition, hd, ?_⟩
    cases hi : identity.item with
    | none =>
      rw [hi] at hitem
      exact hitem
    | some item =>
      rw [hi] at hitem
      obtain ⟨d, owner, hd', howner, hmem⟩ := itemBinding_isSome.mp hitem.2.2
      obtain rfl := Option.some.inj (hd.symm.trans hd')
      exact ⟨hitem.1, owner, howner, hmem⟩
  · rintro ⟨hform, d, hd, hitem⟩
    refine ⟨⟨form, identity, d⟩, node_eq_some.mpr ⟨hform, rfl, rfl, hd, ?_⟩⟩
    cases hi : identity.item with
    | none =>
      rw [hi] at hitem
      exact hitem
    | some item =>
      rw [hi] at hitem
      obtain ⟨hitemForm, owner, howner, hmem⟩ := hitem
      exact ⟨hitemForm, by simp [howner], itemBinding_isSome.mpr ⟨d, owner, hd, howner, hmem⟩⟩

/-- A template node of an array in the item at an index. -/
structure InItem (form : Form) (d : DefinitionNode) (array : Engine.ArrayState) (i : Nat)
    (state : Engine.ArrayItemState) : Prop where
  node : form.definition.inner.nodes[d.id]? = some d
  owner : form.definition.inner.ownerBinding d = some array.definition.binding
  array_mem : array ∈ form.engine.arrays
  state_at : array.items[i]? = some state

theorem item_eq {item : ItemIdentity} (h : item.form = form.id) :
    item = form.item item.localId := by
  rw [Form.item, ← h]

/-! ## Children -/

theorem node_of_resolves {d : DefinitionNode} (h : (form.node identity).isSome)
    (hd : form.definition.inner.nodes[identity.node]? = some d) :
    form.node identity = some ⟨form, identity, d⟩ := by
  obtain ⟨⟨nodeForm, nodeIdentity, definition⟩, hnode⟩ := Option.isSome_iff_exists.mp h
  obtain ⟨_, rfl, rfl, hd', _⟩ := node_eq_some.mp hnode
  obtain rfl := Option.some.inj (hd.symm.trans hd')
  exact hnode

theorem childrenOf_eq {d : DefinitionNode} (h : (form.node identity).isSome)
    (hd : form.definition.inner.nodes[identity.node]? = some d) :
    form.childrenOf identity = NodeView.children ⟨form, identity, d⟩ := by
  rw [childrenOf, node_of_resolves h hd]
  rfl

/-- One child for each item of an array. -/
theorem childrenOf_array {d : DefinitionNode} (h : (form.node identity).isSome)
    (hd : form.definition.inner.nodes[identity.node]? = some d)
    (hk : d.semanticKind = some .homogeneousArray) : ∃ template,
      form.definition.inner.arrayTemplate identity.node = some template ∧
      form.childrenOf identity = (form.itemsOf identity.node).map fun item =>
        form.itemIdentity template (form.item item) := by
  obtain ⟨template, _, ht, _⟩ := form.inner_wf.arrayTemplate_eq hd hk
  obtain ⟨_, array, _, hb, _⟩ := form.inner_wf.array_node (List.mem_of_getElem? hd) hk
  refine ⟨template, ht, ?_⟩
  rw [childrenOf_eq h hd, NodeView.children, if_pos hk]
  simp only [hb, ht, itemsOf, hd, Option.bind_some]

/-- Any other node has the children of its definition, in its own item. -/
theorem childrenOf_other {d : DefinitionNode} (h : (form.node identity).isSome)
    (hd : form.definition.inner.nodes[identity.node]? = some d)
    (hk : d.semanticKind ≠ some .homogeneousArray) :
    form.childrenOf identity = d.children.map fun id => ⟨form.id, id, identity.item⟩ := by
  rw [childrenOf_eq h hd, NodeView.children, if_neg hk]
  have hall : ∀ id ∈ d.children, (form.definition.inner.node id).any (fun child =>
      identity.item.isSome || !child.isItemTemplate) = true := by
    intro id hid
    obtain ⟨child, hchild⟩ := form.inner_wf.child_exists hd hid
    rw [form.inner_wf.node_eq, hchild, Option.any_some]
    cases hi : identity.item with
    | some item => rfl
    | none =>
      -- outside all items, the scope of the node is the scope of its children
      obtain ⟨_, d', hd', howner⟩ := resolves_iff.mp h
      obtain rfl := Option.some.inj (hd.symm.trans hd')
      rw [hi] at howner
      rcases form.inner_wf.child_scope hd hchild hid with ⟨hk', _⟩ | ⟨_, hscope⟩
      · exact absurd hk' hk
      · simp [DefinitionNode.isItemTemplate, hscope.trans howner]
  dsimp only
  rw [List.filter_eq_self.mpr hall]
  cases identity.item <;> rfl

theorem child_resolves {child : InstanceIdentity} {d e : DefinitionNode}
    (h : (form.node identity).isSome)
    (hd : form.definition.inner.nodes[identity.node]? = some d)
    (hk : d.semanticKind ≠ some .homogeneousArray) (hmem : child.node ∈ d.children)
    (he : form.definition.inner.nodes[child.node]? = some e) (hform : child.form = form.id)
    (hitem : child.item = identity.item) : (form.node child).isSome := by
  obtain ⟨_, d', hd', howner⟩ := resolves_iff.mp h
  obtain rfl := Option.some.inj (hd.symm.trans hd')
  rcases form.inner_wf.child_scope hd he hmem with ⟨hk', _⟩ | ⟨_, hscope⟩
  · exact absurd hk' hk
  · refine resolves_iff.mpr ⟨hform, e, he, ?_⟩
    rw [hitem]
    split at howner
    · exact hscope.trans howner
    · obtain ⟨hif, owner, ho, hlocal⟩ := howner
      exact ⟨hif, owner, hscope.trans ho, hlocal⟩

/-- Children of a node: what resolves below it, in its own item unless it is an array. -/
theorem mem_childrenOf {child : InstanceIdentity} : child ∈ form.childrenOf identity ↔
    (form.node identity).isSome ∧ (form.node child).isSome ∧
    child.node ∈ form.definition.inner.children identity.node ∧
    ∀ d, form.definition.inner.nodes[identity.node]? = some d →
      d.semanticKind ≠ some .homogeneousArray → child.item = identity.item := by
  by_cases h : (form.node identity).isSome
  swap
  · simp [childrenOf, Option.not_isSome_iff_eq_none.mp h]
  obtain ⟨_, d, hd, _⟩ := resolves_iff.mp h
  rw [form.inner_wf.children_eq hd]
  by_cases hk : d.semanticKind = some .homogeneousArray
  · obtain ⟨template, ht, hchildren⟩ := childrenOf_array h hd hk
    obtain ⟨template', e, ht', hsingle, he, howner⟩ := form.inner_wf.arrayTemplate_eq hd hk
    obtain rfl := Option.some.inj (ht.symm.trans ht')
    rw [hchildren, hsingle]
    constructor
    · intro hmem
      obtain ⟨item, hitem, rfl⟩ := List.mem_map.mp hmem
      refine ⟨h, resolves_iff.mpr ⟨rfl, e, he, rfl, _, howner, hitem⟩, List.mem_singleton_self _,
        fun d' hd' hk' => ?_⟩
      obtain rfl := Option.some.inj (hd.symm.trans hd')
      exact absurd hk hk'
    · rintro ⟨_, hchild, hmem, _⟩
      obtain ⟨childForm, childNode, childItem⟩ := child
      obtain rfl := List.mem_singleton.mp hmem
      obtain ⟨hform, e', he', hitem⟩ := resolves_iff.mp hchild
      obtain rfl := Option.some.inj (he.symm.trans he')
      split at hitem
      · rw [howner] at hitem
        cases hitem
      · rename_i item hi
        obtain ⟨hif, owner, ho, hlocal⟩ := hitem
        obtain rfl := Option.some.inj (howner.symm.trans ho)
        obtain rfl : childForm = form.id := hform
        obtain rfl : childItem = some item := hi
        obtain ⟨itemForm, localId⟩ := item
        obtain rfl : itemForm = form.id := hif
        exact List.mem_map.mpr ⟨localId, hlocal, rfl⟩
  · rw [childrenOf_other h hd hk, List.mem_map]
    constructor
    · rintro ⟨id, hid, rfl⟩
      obtain ⟨e, he⟩ := form.inner_wf.child_exists hd hid
      exact ⟨h, child_resolves h hd hk hid he rfl rfl, hid, fun _ _ _ => rfl⟩
    · rintro ⟨_, hchild, hmem, hitem⟩
      refine ⟨child.node, hmem, ?_⟩
      obtain ⟨hform, _⟩ := resolves_iff.mp hchild
      rw [← hform, ← hitem d hd hk]

/-! ## The traversal -/

theorem childrenOf_ranked : ∃ rank, Forest.Ranked form.childrenOf rank := by
  obtain ⟨rank, hrank⟩ := form.inner_wf.ranked
  exact ⟨fun identity => rank identity.node, fun identity child hc =>
    hrank identity.node child.node (mem_childrenOf.mp hc).2.2.1⟩

theorem itemsOf_nodup (hinv : form.Inv) (owner : Nat) : (form.itemsOf owner).Nodup := by
  unfold itemsOf Engine.Form.arrayItemIdentities
  cases (form.definition.inner.nodes[owner]?).bind (·.binding) with
  | none => exact List.nodup_nil
  | some binding =>
    rw [Option.bind_some]
    cases ha : form.engine.array binding with
    | none => exact List.nodup_nil
    | some array => exact hinv.identities_nodup array (Engine.Form.array_mem ha).1

/-- An array node stands outside all items. -/
theorem array_item_none {d : DefinitionNode} (h : (form.node identity).isSome)
    (hd : form.definition.inner.nodes[identity.node]? = some d)
    (hk : d.semanticKind = some .homogeneousArray) : identity.item = none := by
  obtain ⟨_, d', hd', howner⟩ := resolves_iff.mp h
  obtain rfl := Option.some.inj (hd.symm.trans hd')
  split at howner
  · assumption
  · obtain ⟨_, owner, ho, _⟩ := howner
    rw [(form.inner_wf.array_node (List.mem_of_getElem? hd) hk).1] at ho
    cases ho

theorem childrenOf_nodup (hinv : form.Inv) (identity : InstanceIdentity) :
    (form.childrenOf identity).Nodup := by
  by_cases h : (form.node identity).isSome
  swap
  · simp [childrenOf, Option.not_isSome_iff_eq_none.mp h]
  obtain ⟨_, d, hd, _⟩ := resolves_iff.mp h
  by_cases hk : d.semanticKind = some .homogeneousArray
  · obtain ⟨template, _, hchildren⟩ := childrenOf_array h hd hk
    rw [hchildren]
    exact (itemsOf_nodup hinv identity.node).map fun a b heq => by
      simpa [itemIdentity, item] using heq
  · rw [childrenOf_other h hd hk]
    have hnd := form.inner_wf.uniqueParent.nodup identity.node
    rw [form.inner_wf.children_eq hd] at hnd
    exact hnd.map fun a b heq => congrArg InstanceIdentity.node heq

theorem childrenOf_uniqueParent (hinv : form.Inv) : Forest.UniqueParent form.childrenOf where
  nodup := childrenOf_nodup hinv
  parent := by
    intro x y child hx hy
    obtain ⟨hrx, _, hcx, hix⟩ := mem_childrenOf.mp hx
    obtain ⟨hry, _, hcy, hiy⟩ := mem_childrenOf.mp hy
    have hnode := form.inner_wf.uniqueParent.parent _ _ _ hcx hcy
    obtain ⟨hfx, d, hd, _⟩ := resolves_iff.mp hrx
    obtain ⟨hfy, _⟩ := resolves_iff.mp hry
    have hdy := hnode ▸ hd
    have hitem : x.item = y.item := by
      by_cases hk : d.semanticKind = some .homogeneousArray
      · rw [array_item_none hrx hd hk, array_item_none hry hdy hk]
      · rw [← hix d hd hk, ← hiy d hdy hk]
    obtain ⟨xForm, xNode, xItem⟩ := x
    obtain ⟨yForm, yNode, yItem⟩ := y
    obtain rfl : xForm = form.id := hfx
    obtain rfl : yForm = form.id := hfy
    obtain rfl : xNode = yNode := hnode
    obtain rfl : xItem = yItem := hitem
    rfl

theorem root_resolves : (form.node form.root).isSome := by
  obtain ⟨node, hnode, howner, _⟩ := form.inner_wf.root
  exact resolves_iff.mpr ⟨rfl, node, hnode, howner⟩

/-- The parent of what resolves: its array, or the parent of its definition in the same item. -/
theorem parent_of_resolves (h : (form.node identity).isSome) {w : Nat}
    (hw : identity.node ∈ form.definition.inner.children w) :
    ∃ parent : InstanceIdentity, parent.node = w ∧ (form.node parent).isSome ∧
      identity ∈ form.childrenOf parent := by
  obtain ⟨hform, d, hd, howner⟩ := resolves_iff.mp h
  obtain ⟨dw, hdw, hmem⟩ := form.inner_wf.mem_children.mp hw
  rcases form.inner_wf.child_scope hdw hd hmem with ⟨hk, _, _⟩ | ⟨hk, hscope⟩
  · have hparent : (form.node (form.identity w)).isSome :=
      resolves_iff.mpr ⟨rfl, dw, hdw, (form.inner_wf.array_node (List.mem_of_getElem? hdw) hk).1⟩
    refine ⟨form.identity w, rfl, hparent, mem_childrenOf.mpr ⟨hparent, h, hw, fun e he hke => ?_⟩⟩
    obtain rfl := Option.some.inj (hdw.symm.trans he)
    exact absurd hk hke
  · have hparent : (form.node ⟨form.id, w, identity.item⟩).isSome := by
      refine resolves_iff.mpr ⟨rfl, dw, hdw, ?_⟩
      dsimp only
      split at howner
      · exact hscope.symm.trans howner
      · obtain ⟨hif, owner, ho, hlocal⟩ := howner
        exact ⟨hif, owner, hscope.symm.trans ho, hlocal⟩
    exact ⟨_, rfl, hparent, mem_childrenOf.mpr ⟨hparent, h, hw, fun _ _ _ => rfl⟩⟩

/-- Everything that resolves hangs below the root. -/
theorem reaches_root (h : (form.node identity).isSome) :
    Forest.Reaches form.childrenOf form.root identity := by
  have hroot : Forest.Reaches form.definition.inner.children 0 identity.node := by
    obtain ⟨_, d, hd, _⟩ := resolves_iff.mp h
    exact form.inner_wf.covered identity.node (List.getElem?_eq_some_iff.mp hd).1
  -- along the path to the node in the definition
  generalize hn : identity.node = n at hroot
  induction hroot generalizing identity with
  | refl =>
    obtain ⟨hform, d', hd', howner⟩ := resolves_iff.mp h
    obtain ⟨r, hr, hrowner, _⟩ := form.inner_wf.root
    rw [hn] at hd'
    obtain rfl := Option.some.inj (hr.symm.trans hd')
    obtain ⟨identityForm, identityNode, identityItem⟩ := identity
    obtain rfl : identityForm = form.id := hform
    obtain rfl : identityNode = 0 := hn
    cases identityItem with
    | none => exact .refl
    | some item =>
      obtain ⟨_, owner, ho, _⟩ := howner
      rw [hrowner] at ho
      cases ho
  | tail _ hc ih =>
    rw [← hn] at hc
    obtain ⟨parent, hnode, hparent, hmem⟩ := parent_of_resolves h hc
    exact .tail (ih hparent hnode) hmem

theorem resolves_of_reaches {child : InstanceIdentity} (h : (form.node identity).isSome)
    (hr : Forest.Reaches form.childrenOf identity child) : (form.node child).isSome := by
  induction hr with
  | refl => exact h
  | tail _ hc _ => exact (mem_childrenOf.mp hc).2.1

/-! ## Enough fuel -/

/-- Every node outside all items and in each item: more than what resolves. -/
def identityBound (form : Form) : List InstanceIdentity :=
  (List.range form.definition.inner.nodes.length).flatMap fun node =>
    form.identity node :: (form.engine.arrays.flatMap (·.identities)).map fun item =>
      form.itemIdentity node (form.item item)

theorem length_identityBound (form : Form) : form.identityBound.length = form.treeFuel := by
  unfold identityBound treeFuel
  rw [List.length_flatMap]
  simp [List.length_flatMap, Engine.ArrayState.identities, Nat.add_comm]

theorem itemsOf_mem {owner localId : Nat} (h : localId ∈ form.itemsOf owner) :
    localId ∈ form.engine.arrays.flatMap (·.identities) := by
  unfold itemsOf Engine.Form.arrayItemIdentities at h
  cases hb : (form.definition.inner.nodes[owner]?).bind (·.binding) with
  | none => simp [hb] at h
  | some binding =>
    rw [hb, Option.bind_some] at h
    cases ha : form.engine.array binding with
    | none => simp [ha] at h
    | some array =>
      rw [ha] at h
      exact List.mem_flatMap.mpr ⟨array, (Engine.Form.array_mem ha).1, h⟩

theorem mem_identityBound (h : (form.node identity).isSome) : identity ∈ form.identityBound := by
  obtain ⟨hform, d, hd, hitem⟩ := resolves_iff.mp h
  refine List.mem_flatMap.mpr ⟨identity.node,
    List.mem_range.mpr (List.getElem?_eq_some_iff.mp hd).1, ?_⟩
  obtain ⟨identityForm, identityNode, identityItem⟩ := identity
  obtain rfl : identityForm = form.id := hform
  cases identityItem with
  | none => exact List.mem_cons_self
  | some item =>
    obtain ⟨hif, owner, _, hlocal⟩ := hitem
    obtain ⟨itemForm, localId⟩ := item
    obtain rfl : itemForm = form.id := hif
    exact List.mem_cons_of_mem _ (List.mem_map.mpr ⟨localId, itemsOf_mem hlocal, rfl⟩)

theorem instanceIdentities_eq (hinv : form.Inv) : ∃ rank : InstanceIdentity → Nat,
    Forest.Ranked form.childrenOf rank ∧
    form.instanceIdentities = Forest.preorder form.childrenOf (rank form.root + 1) form.root := by
  obtain ⟨rank, hrank⟩ := form.childrenOf_ranked
  refine ⟨rank, hrank, Forest.dfs_root hrank (childrenOf_uniqueParent hinv)
    (fun y hy => mem_identityBound (resolves_of_reaches root_resolves hy))
    (length_identityBound form).le⟩

/-- The traversal lists what resolves, -/
theorem mem_instanceIdentities (hinv : form.Inv) :
    identity ∈ form.instanceIdentities ↔ (form.node identity).isSome := by
  obtain ⟨rank, hrank, heq⟩ := instanceIdentities_eq hinv
  rw [heq, Forest.mem_preorder hrank (Nat.lt_succ_self _)]
  exact ⟨resolves_of_reaches root_resolves, reaches_root⟩

/-- and lists it once. -/
theorem instanceIdentities_nodup (hinv : form.Inv) : form.instanceIdentities.Nodup := by
  obtain ⟨rank, hrank, heq⟩ := instanceIdentities_eq hinv
  rw [heq]
  exact Forest.nodup_preorder hrank (childrenOf_uniqueParent hinv) (Nat.lt_succ_self _)

/-! ## Items of an array -/

theorem findIdx?_identity {items : List Engine.ArrayItemState}
    (hnd : (items.map (·.identity)).Nodup) {i : Nat} {item : Engine.ArrayItemState}
    (hi : items[i]? = some item) : items.findIdx? (·.identity == item.identity) = some i := by
  obtain ⟨hlt, rfl⟩ := List.getElem?_eq_some_iff.mp hi
  refine List.findIdx?_eq_some_iff_getElem.mpr ⟨hlt, by simp, fun j hj => ?_⟩
  have hjlt := hj.trans hlt
  simpa using fun he => Nat.ne_of_lt hj (Engine.Form.identity_index hnd
    (List.getElem?_eq_getElem hjlt) hi he)

theorem InItem.itemBinding (hinv : form.Inv) {d : DefinitionNode} {array : Engine.ArrayState}
    {i : Nat} {state : Engine.ArrayItemState} (h : form.InItem d array i state) :
    form.itemBinding d.id (form.item state.identity) =
      some (Engine.arrayItemPointer array.definition.binding i) := by
  obtain ⟨owner, howner, hb⟩ := Option.bind_eq_some_iff.mp h.owner
  have harray := hinv.shaped.array_eq form.engine_wf h.array_mem
  have hindex := findIdx?_identity (hinv.identities_nodup array h.array_mem) h.state_at
  unfold Form.itemBinding DefinitionInner.arrayForTemplate Engine.Form.arrayItemBinding
  obtain ⟨arrayNode, hnode, hb⟩ := Option.bind_eq_some_iff.mp hb
  simp only [h.node, Option.bind_eq_bind, Option.bind_some, howner, form.inner_wf.node_eq, hnode,
    hb, harray, item, hindex]
  rfl

theorem InItem.resolves (hinv : form.Inv) {d : DefinitionNode} {array : Engine.ArrayState}
    {i : Nat} {state : Engine.ArrayItemState} (h : form.InItem d array i state) :
    form.node (form.itemIdentity d.id (form.item state.identity)) =
      some ⟨form, form.itemIdentity d.id (form.item state.identity), d⟩ := by
  obtain ⟨owner, howner, _⟩ := Option.bind_eq_some_iff.mp h.owner
  refine node_eq_some.mpr ⟨rfl, rfl, rfl, h.node, rfl, ?_, ?_⟩
  · rw [howner]
    nofun
  · rw [itemIdentity, h.itemBinding hinv]
    rfl

theorem InItem.bindingOf (hinv : form.Inv) {d : DefinitionNode} {array : Engine.ArrayState}
    {i : Nat} {state : Engine.ArrayItemState} (h : form.InItem d array i state) :
    form.bindingOf (form.itemIdentity d.id (form.item state.identity)) =
      d.binding.map (Engine.arrayItemPointer array.definition.binding i ++ ·) := by
  rw [Form.bindingOf, h.resolves hinv, Option.bind_some, NodeView.binding]
  dsimp only [itemIdentity]
  rw [h.itemBinding hinv, Option.bind_some]

/-! ## Subtrees of items -/

theorem itemSubtreeIdentities_eq {template : Nat}
    (ht : template < form.definition.inner.nodes.length) (item : ItemIdentity) :
    ∃ rank : Nat → Nat, Forest.Ranked form.definition.inner.children rank ∧
      form.itemSubtreeIdentities template item =
        (Forest.preorder form.definition.inner.children (rank template + 1) template).map
          fun node => form.itemIdentity node item := by
  obtain ⟨rank, hrank⟩ := form.inner_wf.ranked
  have hbound (y : Nat) (hy : Forest.Reaches form.definition.inner.children template y) :
      y ∈ List.range form.definition.inner.nodes.length := by
    rw [List.mem_range]
    rcases Relation.ReflTransGen.cases_tail hy with rfl | ⟨w, _, hc⟩
    · exact ht
    · obtain ⟨node, hnode, hmem⟩ := form.inner_wf.mem_children.mp hc
      exact form.inner_wf.children_lt node (List.mem_of_getElem? hnode) y hmem
  refine ⟨rank, hrank, ?_⟩
  rw [itemSubtreeIdentities, Forest.dfs_root hrank form.inner_wf.uniqueParent hbound
    List.length_range.le]

/-- The template nodes of an array, in one item. -/
theorem mem_itemSubtreeIdentities {array template : Nat}
    (ht : form.definition.inner.arrayTemplate array = some template) {d : DefinitionNode}
    (hd : form.definition.inner.nodes[array]? = some d)
    (hk : d.semanticKind = some .homogeneousArray) {item : ItemIdentity} :
    identity ∈ form.itemSubtreeIdentities template item ↔
      identity.form = form.id ∧ identity.item = some item ∧
      ∃ e, form.definition.inner.nodes[identity.node]? = some e ∧ e.owningArray = some array := by
  obtain ⟨template', e, ht', _, he, _⟩ := form.inner_wf.arrayTemplate_eq hd hk
  obtain rfl := Option.some.inj (ht.symm.trans ht')
  obtain ⟨rank, hrank, heq⟩ :=
    itemSubtreeIdentities_eq (List.getElem?_eq_some_iff.mp he).1 item
  rw [heq, List.mem_map]
  simp only [Forest.mem_preorder hrank (Nat.lt_succ_self _),
    form.inner_wf.reaches_template ht hd hk]
  constructor
  · rintro ⟨node, hnode, rfl⟩
    exact ⟨rfl, rfl, hnode⟩
  · rintro ⟨hform, hitem, hnode⟩
    refine ⟨identity.node, hnode, ?_⟩
    rw [itemIdentity, ← hform, ← hitem]

theorem itemSubtreeIdentities_nodup {array template : Nat}
    (ht : form.definition.inner.arrayTemplate array = some template) {d : DefinitionNode}
    (hd : form.definition.inner.nodes[array]? = some d)
    (hk : d.semanticKind = some .homogeneousArray) (item : ItemIdentity) :
    (form.itemSubtreeIdentities template item).Nodup := by
  obtain ⟨template', e, ht', _, he, _⟩ := form.inner_wf.arrayTemplate_eq hd hk
  obtain rfl := Option.some.inj (ht.symm.trans ht')
  obtain ⟨rank, hrank, heq⟩ :=
    itemSubtreeIdentities_eq (List.getElem?_eq_some_iff.mp he).1 item
  rw [heq]
  exact (Forest.nodup_preorder hrank form.inner_wf.uniqueParent (Nat.lt_succ_self _)).map
    fun a b h => congrArg InstanceIdentity.node h

end Form

end Schemaform
