import Schemaform.Form.UserSpec
import Schemaform.Engine.Typed

/-!
# Form.NodeSpec

What the nodes of a form stand for.

* `node_eq_some`: the identities that resolve.
* `node_bound`: a bound node shows a generated one, at its own place or inside one item.
* `belowNoControl`: nothing is typed into above an object or an array.
-/

namespace Schemaform

theorem apart_irrefl (p : Pointer) : ¬ p.Apart p := by
  intro h
  have : p.startsWith p = true := Pointer.startsWith_iff.mpr ⟨[], by simp⟩
  rw [h.1] at this
  cases this

namespace DefinitionInner.WellFormed

variable {definition : DefinitionInner}

theorem node_eq (h : definition.WellFormed) (id : Nat) :
    definition.node id = definition.nodes[id]? := by
  unfold DefinitionInner.node
  cases hn : definition.nodes[id]? with
  | none => rfl
  | some node =>
    rw [Option.filter_eq_some_iff]
    exact ⟨rfl, by simp [h.ids id node hn]⟩

theorem getElem?_id (h : definition.WellFormed) {node : DefinitionNode}
    (hnode : node ∈ definition.nodes) : definition.nodes[node.id]? = some node := by
  obtain ⟨i, hi⟩ := List.mem_iff_getElem?.mp hnode
  rw [h.ids i node hi]
  exact hi

end DefinitionInner.WellFormed

/-- Some node shows the control. -/
def DefinitionInner.ShowsControl (definition : DefinitionInner) (owner : Option Pointer)
    (control : Engine.ControlDefinition) : Prop :=
  ∃ node ∈ definition.nodes, definition.Instantiates node (generatedControl owner control)

namespace Form

variable {form : Form} {identity : InstanceIdentity} {node : NodeView}

theorem inner_wf (form : Form) : form.definition.inner.WellFormed := form.definition.wellFormed

theorem engine_wf (form : Form) : form.definition.inner.engine.WellFormed := form.inner_wf.engine

/-- A node resolves when its form is this one and, inside an item template, when its item is an
item of the template's array. -/
theorem node_eq_some : form.node identity = some node ↔
    identity.form = form.id ∧ node.form = form ∧ node.identity = identity ∧
    form.definition.inner.nodes[identity.node]? = some node.definition ∧
    match identity.item with
    | none => node.definition.owningArray = none
    | some item => item.form = form.id ∧ node.definition.owningArray ≠ none ∧
      (form.itemBinding identity.node item).isSome := by
  obtain ⟨nodeForm, nodeIdentity, nodeDefinition⟩ := node
  unfold Form.node
  by_cases hid : identity.form = form.id
  · rw [if_neg (not_not.mpr hid), form.inner_wf.node_eq, Option.bind_eq_some_iff]
    cases hitem : identity.item with
    | none =>
      simp only [DefinitionNode.isItemTemplate, Option.isSome_iff_ne_none, ite_eq_iff,
        reduceCtorEq, and_false, Option.some.injEq, NodeView.mk.injEq, false_or, not_not]
      constructor
      · rintro ⟨d, hd, howner, rfl, rfl, rfl⟩
        exact ⟨hid, rfl, rfl, hd, howner⟩
      · rintro ⟨_, rfl, rfl, hd, howner⟩
        exact ⟨_, hd, howner, rfl, rfl, rfl⟩
    | some item =>
      simp only [DefinitionNode.isItemTemplate, Bool.or_eq_true, decide_eq_true_eq,
        Bool.not_eq_true', Option.isSome_eq_false_iff, Option.isNone_iff_eq_none, ite_eq_iff,
        reduceCtorEq, and_false, false_or, not_or, not_not, Option.map_eq_some_iff,
        NodeView.mk.injEq, Option.isSome_iff_exists]
      constructor
      · rintro ⟨d, hd, ⟨hform, howner⟩, q, hq, rfl, rfl, rfl⟩
        exact ⟨hid, rfl, rfl, hd, hform, howner, q, hq⟩
      · rintro ⟨_, rfl, rfl, hd, hform, howner, q, hq⟩
        exact ⟨_, hd, ⟨hform, howner⟩, q, hq, rfl, rfl, rfl⟩
  · rw [if_pos hid]
    simp [hid]

theorem arrayItemBinding_eq_some {engine : Engine.Form} {binding p : Pointer} {identity : Nat}
    (h : engine.arrayItemBinding binding identity = some p) : ∃ array ∈ engine.arrays,
      array.definition.binding = binding ∧ ∃ (i : Nat) (item : Engine.ArrayItemState),
        array.items[i]? = some item ∧ item.identity = identity ∧
        p = Engine.arrayItemPointer binding i := by
  simp only [Engine.Form.arrayItemBinding, Option.bind_eq_bind, Option.bind_eq_some_iff] at h
  obtain ⟨array, ha, i, hi, hp⟩ := h
  obtain ⟨hmem, rfl⟩ := Engine.Form.array_mem ha
  obtain ⟨item, hitem, hid⟩ := Engine.Form.findIdx?_some hi
  cases hp
  exact ⟨array, hmem, rfl, i, item, hitem, by simpa using hid, rfl⟩

/-- The item of the template's array that an item identity names. -/
theorem itemBinding_eq_some {template : Nat} {item : ItemIdentity} {p : Pointer}
    (h : form.itemBinding template item = some p) :
    ∃ t owner array, form.definition.inner.nodes[template]? = some t ∧
      t.owningArray = some owner ∧ array ∈ form.engine.arrays ∧
      form.definition.inner.ownerBinding t = some array.definition.binding ∧
      ∃ (i : Nat) (state : Engine.ArrayItemState), array.items[i]? = some state ∧
        state.identity = item.localId ∧ p = Engine.arrayItemPointer array.definition.binding i := by
  simp only [itemBinding, DefinitionInner.arrayForTemplate, Option.bind_eq_bind,
    Option.bind_eq_some_iff, form.inner_wf.node_eq] at h
  obtain ⟨owner, ⟨t, ht, howner⟩, arrayNode, hnode, binding, hbinding, h⟩ := h
  obtain ⟨array, ha, rfl, i, state, hi, hid, rfl⟩ := arrayItemBinding_eq_some h
  refine ⟨t, owner, array, ht, howner, ha, ?_, i, state, hi, hid, rfl⟩
  rw [DefinitionInner.ownerBinding, howner, Option.bind_some, hnode, Option.bind_some, hbinding]

/-- Where a bound node stands: outside all items, or in one. -/
inductive Place (form : Form) (identity : InstanceIdentity) (g : GeneratedNode) (p : Pointer) : Prop
  | static (item : identity.item = none) (owner : g.owningArrayBinding = none) (at_ : p = g.binding)
  | inItem (item : ItemIdentity) (array : Engine.ArrayState) (i : Nat)
      (state : Engine.ArrayItemState) (itemOf : identity.item = some item)
      (array_mem : array ∈ form.engine.arrays)
      (owner : g.owningArrayBinding = some array.definition.binding)
      (state_at : array.items[i]? = some state) (state_id : state.identity = item.localId)
      (at_ : p = Engine.arrayItemPointer array.definition.binding i ++ g.binding)

theorem node_bound (h : form.node identity = some node) {p : Pointer} (hp : node.binding = some p) :
    ∃ g ∈ generatedNodes form.definition.inner.engine,
      form.definition.inner.Instantiates node.definition g ∧ form.Place identity g p := by
  obtain ⟨_, hform, hidentity, hd, hitem⟩ := node_eq_some.mp h
  unfold NodeView.binding at hp
  rw [hidentity, hform] at hp
  rcases form.inner_wf.nodes _ (List.mem_of_getElem? hd) with ⟨g, hg, hinst⟩ | hpres
  · refine ⟨g, hg, hinst, ?_⟩
    cases hi : identity.item with
    | none =>
      rw [hi] at hp hitem
      have howner : g.owningArrayBinding = none := by
        have := hinst.owner
        rw [hitem] at this
        exact Option.isNone_iff_eq_none.mp (by simpa using this.symm)
      rw [hinst.binding] at hp
      exact .static hi howner (Option.some.inj hp).symm
    | some item =>
      rw [hi] at hp
      obtain ⟨pointer, hpointer, hp⟩ := Option.bind_eq_some_iff.mp hp
      rw [hinst.binding] at hp
      obtain ⟨t, _, array, ht, _, ha, hb, i, state, hstate, hid, rfl⟩ :=
        itemBinding_eq_some hpointer
      obtain rfl := Option.some.inj (ht.symm.trans hd)
      exact .inItem item array i state hi ha (hinst.ownerBinding.symm.trans hb) hstate hid
        (Option.some.inj hp).symm
  · cases hi : identity.item with
    | none =>
      rw [hi, hpres.binding] at hp
      cases hp
    | some item =>
      rw [hi, hpres.binding] at hp
      obtain ⟨_, _, hp⟩ := Option.bind_eq_some_iff.mp hp
      cases hp

/-! ## Structures -/

theorem startsWith_trans {p q b : Pointer} (hp : p.startsWith q = true) (hq : q.startsWith b = true) :
    p.startsWith b = true := by
  obtain ⟨s, rfl⟩ := Pointer.startsWith_iff.mp hp
  obtain ⟨t, rfl⟩ := Pointer.startsWith_iff.mp hq
  exact Pointer.startsWith_iff.mpr ⟨t ++ s, List.append_assoc _ _ _⟩

/-- Two prefixes of one pointer are not apart. -/
theorem not_apart_of_startsWith {p a b : Pointer} (ha : p.startsWith a = true)
    (hb : p.startsWith b = true) : ¬ a.Apart b := by
  intro h
  obtain ⟨s, rfl⟩ := Pointer.startsWith_iff.mp ha
  rw [(h.append_left s).1] at hb
  cases hb

theorem item_startsWith (binding : Pointer) (i : Nat) (q : Pointer) :
    (Engine.arrayItemPointer binding i ++ q).startsWith binding = true :=
  Pointer.startsWith_iff.mpr ⟨Nat.repr i :: q, by simp [Engine.arrayItemPointer]⟩

section Below

variable {definition : Engine.FormDefinition} {engine : Engine.Form} {p : Pointer}

/-- What stands above no leaf of the projection stands above no control. -/
theorem belowNoControl_object (hs : engine.Shaped definition)
    (habove : ∀ b ∈ definition.controls.map (·.binding) ++ definition.arrays.map (·.binding),
      p.startsWith b = false) : engine.BelowNoControl p := by
  rintro q c hmem t r rfl
  have hq : (q ++ t :: r).startsWith q = true := Pointer.startsWith_iff.mpr ⟨_, rfl⟩
  rcases Engine.mem_boundControls.mp hmem with ⟨hc, rfl⟩ | ⟨a, ha, i, item, hi, hc, rfl⟩
  · rw [habove _ (List.mem_append_left _ (List.mem_map_of_mem (hs.control_mem hc)))] at hq
    cases hq
  · have hb := startsWith_trans hq (item_startsWith a.definition.binding i c.definition.binding)
    rw [habove _ (List.mem_append_right _ (List.mem_map_of_mem (hs.array_mem ha)))] at hb
    cases hb

/-- At or below an array, only the controls of its own items matter. -/
theorem belowNoControl_array (hd : definition.WellFormed) (hs : engine.Shaped definition)
    {a : Engine.ArrayState} (ha : a ∈ engine.arrays) (hp : p.startsWith a.definition.binding = true)
    (hitems : ∀ (i : Nat) (item : Engine.ArrayItemState), a.items[i]? = some item →
      ∀ c ∈ item.controls, p.startsWith
        (Engine.arrayItemPointer a.definition.binding i ++ c.definition.binding) = false) :
    engine.BelowNoControl p := by
  rintro q c hmem t r rfl
  have hq : (q ++ t :: r).startsWith q = true := Pointer.startsWith_iff.mpr ⟨_, rfl⟩
  rcases Engine.mem_boundControls.mp hmem with ⟨hc, rfl⟩ | ⟨b, hb, i, item, hi, hc, rfl⟩
  · exact not_apart_of_startsWith hq hp (hs.control_array_apart hd hc ha)
  · have hqb := startsWith_trans hq (item_startsWith b.definition.binding i c.definition.binding)
    obtain ⟨j, hj⟩ := List.mem_iff_getElem?.mp ha
    obtain ⟨k, hk⟩ := List.mem_iff_getElem?.mp hb
    by_cases hjk : j = k
    · subst hjk
      obtain rfl := Option.some.inj (hj.symm.trans hk)
      rw [hitems i item hi c hc] at hq
      cases hq
    · exact not_apart_of_startsWith hp hqb (hs.arrays_apart hd hj hk hjk)

end Below

/-- Where a control is bound, no other control lies above. -/
theorem belowNoControl_control {definition : Engine.FormDefinition} {engine : Engine.Form}
    (hd : definition.WellFormed) (hs : engine.Shaped definition) {p : Pointer}
    {c : Engine.ControlState} (hp : (p, c) ∈ engine.boundControls) :
    engine.BelowNoControl p ∧ p ≠ [] := by
  obtain ⟨location, hat⟩ := Engine.Form.exists_at hp
  refine ⟨?_, hat.ne_root hd hs⟩
  rintro q d hq t r rfl
  obtain ⟨location', hat'⟩ := Engine.Form.exists_at hq
  by_cases hloc : location = location'
  · subst hloc
    have hcd := (Engine.Form.controlState_of_at hat).symm.trans (Engine.Form.controlState_of_at hat')
    have hlen : q.length = (q ++ t :: r).length := by
      cases location with
      | static i =>
        rw [← hat.2, ← hat'.2, Option.some.inj hcd]
      | arrayItem a i k =>
        obtain ⟨array, _, ha, _, _, hb⟩ := hat
        obtain ⟨array', _, ha', _, _, hb'⟩ := hat'
        rw [← hb, ← hb', Option.some.inj hcd, Option.some.inj (ha.symm.trans ha')]
    simp only [List.length_append, List.length_cons] at hlen
    omega
  · have hap := hs.bound_apart hd hat hat' hloc
    have : (q ++ t :: r).startsWith q = true := Pointer.startsWith_iff.mpr ⟨_, rfl⟩
    rw [hap.1] at this
    cases this

/-- Two arrays of the definition at one place are one array. -/
theorem array_unique {definition : Engine.FormDefinition} (hd : definition.WellFormed)
    {a b : Engine.ArrayDefinition} (ha : a ∈ definition.arrays) (hb : b ∈ definition.arrays)
    (h : a.binding = b.binding) : a = b := by
  obtain ⟨j, hj⟩ := List.mem_iff_getElem?.mp ha
  obtain ⟨k, hk⟩ := List.mem_iff_getElem?.mp hb
  by_cases hjk : j = k
  · subst hjk
    exact Option.some.inj (hj.symm.trans hk)
  · have hap := ListEdit.rel_of_pairwise (fun _ _ => Pointer.Apart.symm) hd.arrays_apart
      (ListEdit.getElem?_of_map hj) (ListEdit.getElem?_of_map hk) hjk
    rw [h] at hap
    exact absurd hap (apart_irrefl _)

/-- What a bound node shows, with the state the engine has for it. -/
inductive Shows (form : Form) (identity : InstanceIdentity) (g : GeneratedNode) (p : Pointer) : Prop
  | object (o : Engine.ObjectDefinition) (o_mem : o ∈ form.definition.inner.engine.objects)
      (item : identity.item = none) (generated : g = generatedObject none o) (at_ : p = o.binding)
  | itemObject (a : Engine.ArrayState) (i : Nat) (state : Engine.ArrayItemState) (item : ItemIdentity)
      (o : Engine.ObjectDefinition) (a_mem : a ∈ form.engine.arrays)
      (state_at : a.items[i]? = some state) (o_mem : o ∈ a.definition.itemTemplate.objects)
      (itemOf : identity.item = some item) (state_id : state.identity = item.localId)
      (generated : g = generatedObject (some a.definition.binding) o)
      (at_ : p = Engine.arrayItemPointer a.definition.binding i ++ o.binding)
  | array (a : Engine.ArrayState) (a_mem : a ∈ form.engine.arrays) (item : identity.item = none)
      (generated : g = generatedArray a.definition) (at_ : p = a.definition.binding)
  | control (c : Engine.ControlState) (location : Engine.ControlLocation)
      (found : form.engine.At p c location)
      (generated : g = generatedControl (form.engine.owner location) c.definition)
  | unsupported (u : Engine.UnsupportedRegion)
      (u_mem : u ∈ form.definition.inner.engine.unsupportedRegions) (item : identity.item = none)
      (generated : g = generatedUnsupported u) (at_ : p = u.binding)

theorem node_shows (hs : form.engine.Shaped form.definition.inner.engine)
    (h : form.node identity = some node) {p : Pointer} (hp : node.binding = some p) :
    ∃ g, form.definition.inner.Instantiates node.definition g ∧ form.Shows identity g p := by
  have hd := form.engine_wf
  obtain ⟨g, hg, hinst, hplace⟩ := node_bound h hp
  refine ⟨g, hinst, ?_⟩
  rcases mem_generatedNodes.mp hg with ⟨o, ho, rfl⟩ | ⟨c, hc, rfl⟩ | ⟨d, hd', hcase⟩ | ⟨u, hu, rfl⟩
  · cases hplace with
    | inItem item array i state _ _ howner _ _ _ => cases howner
    | static hitem _ hat => exact .object o ho hitem rfl hat
  · cases hplace with
    | inItem item array i state _ _ howner _ _ _ => cases howner
    | static hitem _ hat =>
      obtain ⟨c, hmem, rfl⟩ := List.mem_map.mp (hs.controls ▸ hc)
      obtain ⟨i, hi⟩ := List.mem_iff_getElem?.mp hmem
      exact .control c (.static i) ⟨hi, hat.symm⟩ rfl
  · rcases hcase with rfl | ⟨o, ho, rfl⟩ | ⟨c, hc, rfl⟩
    · cases hplace with
      | inItem item array i state _ _ howner _ _ _ => cases howner
      | static hitem _ hat =>
        obtain ⟨a, ha, rfl⟩ := List.mem_map.mp (hs.arrays ▸ hd')
        exact .array a ha hitem rfl hat
    · cases hplace with
      | static _ howner _ => cases howner
      | inItem item a i state hitem ha howner hstate hid hat =>
        obtain rfl := array_unique hd hd' (hs.array_mem ha) (Option.some.inj howner)
        exact .itemObject a i state item o ha hstate ho hitem hid rfl hat
    · cases hplace with
      | static _ howner _ => cases howner
      | inItem item a i state hitem ha howner hstate hid hat =>
        obtain rfl := array_unique hd hd' (hs.array_mem ha) (Option.some.inj howner)
        rw [← hs.items a ha state (List.mem_of_getElem? hstate)] at hc
        obtain ⟨c, hmem, rfl⟩ := List.mem_map.mp hc
        obtain ⟨k, hk⟩ := List.mem_iff_getElem?.mp hmem
        obtain ⟨j, hj⟩ := List.mem_iff_getElem?.mp ha
        refine .control c (.arrayItem j i k) ⟨a, state, hj, hstate, hk, hat.symm⟩ ?_
        rw [Engine.Form.owner, hj]
        rfl
  · cases hplace with
    | inItem item array i state _ _ howner _ _ _ => cases howner
    | static hitem _ hat => exact .unsupported u hu hitem rfl hat

/-- No control lies above a bound node that shows something supported. -/
theorem belowNoControl (hs : form.engine.Shaped form.definition.inner.engine)
    (h : form.node identity = some node) {p : Pointer} (hp : node.binding = some p)
    (hk : node.definition.semanticKind ≠ none) : form.engine.BelowNoControl p ∧ p ≠ [] := by
  have hd := form.engine_wf
  obtain ⟨g, hinst, hshows⟩ := node_shows hs h hp
  cases hshows with
  | object o ho _ hg hat =>
    subst hat
    exact ⟨belowNoControl_object hs (hd.objects_above o ho), hd.objects_ne_root o ho⟩
  | itemObject a i state _ o ha hstate ho _ _ hg hat =>
    refine ⟨belowNoControl_array hd hs ha (hat ▸ item_startsWith _ _ _) fun j state' hj c hc => ?_,
      by simp [hat, Engine.arrayItemPointer]⟩
    by_cases hij : i = j
    · subst hij
      refine Bool.eq_false_iff.mpr fun hsw => ?_
      obtain ⟨s, hs'⟩ := Pointer.startsWith_iff.mp hsw
      rw [hat, List.append_assoc] at hs'
      have hoc := (hd.template_wf _ (hs.array_mem ha)).objects_above o ho _
        (hs.item_mem ha (List.mem_of_getElem? hj) hc)
      rw [Pointer.startsWith_iff.mpr ⟨s, List.append_cancel_left hs'⟩] at hoc
      cases hoc
    · rw [hat]
      exact (Engine.arrayItemPointer_apart _ hij _ _).1
  | array a ha _ hg hat =>
    subst hat
    refine ⟨belowNoControl_array hd hs ha (Pointer.startsWith_iff.mpr ⟨[], by simp⟩)
      fun i item hi c hc => ?_,
      hd.leaves_ne_root _ (List.mem_append_right _ (List.mem_map_of_mem (hs.array_mem ha)))⟩
    refine Bool.eq_false_iff.mpr fun hsw => ?_
    obtain ⟨s, hs'⟩ := Pointer.startsWith_iff.mp hsw
    have := congrArg List.length hs'
    simp only [Engine.arrayItemPointer, List.length_append, List.length_cons,
      List.length_nil] at this
    omega
  | control c _ hfound _ =>
    exact belowNoControl_control hd hs (Engine.Form.mem_boundControls_of_at hfound)
  | unsupported u hu _ hg hat =>
    rw [hinst.semanticKind, hg] at hk
    exact absurd rfl hk

/-! ## Permissions -/

/-- Nothing is allowed on what shows nothing supported. -/
theorem semanticKind_of_allowed {allowed : AllowedOperations → Bool} (hnone : allowed {} = false)
    (h : allowed node.allowedOperations = true) : node.definition.semanticKind ≠ none := by
  intro hk
  have hstate : node.valueState = none := by simp [NodeView.valueState, hk]
  simp [NodeView.allowedOperations, hk, hstate, hnone] at h

theorem isReadOnly_of_allowed {allowed : AllowedOperations → Bool} (hnone : allowed {} = false)
    (h : allowed node.allowedOperations = true) : node.isReadOnly = false := by
  cases hro : node.isReadOnly with
  | false => rfl
  | true => simp [NodeView.allowedOperations, hro, hnone] at h

/-- What is never allowed on scalars is allowed on arrays or objects. -/
theorem structure_of_allowed {allowed : AllowedOperations → Bool} (hnone : allowed {} = false)
    (hscalar : ∀ state, allowed (node.scalarOperations state) = false)
    (h : allowed node.allowedOperations = true) :
    node.definition.semanticKind = some .homogeneousArray ∧ allowed node.arrayOperations = true ∨
    node.definition.semanticKind = some .fixedObject ∧ allowed node.objectOperations = true := by
  unfold NodeView.allowedOperations at h
  split at h
  · simp [hnone] at h
  · split at h
    · rename_i hk
      exact .inl ⟨hk, h⟩
    · split at h
      · rename_i hk
        exact .inr ⟨hk, h⟩
      · split at h
        · simp [hnone] at h
        · simp [hscalar] at h

theorem materialize_structure (h : node.allowedOperations.materialize = true) :
    node.definition.semanticKind.any SemanticKind.isStructure = true := by
  have hscalar (state : ScalarValueState) : (node.scalarOperations state).materialize = false := rfl
  rcases structure_of_allowed rfl hscalar h with
    ⟨hk, _⟩ | ⟨hk, _⟩ <;> rw [hk] <;> rfl

theorem seed_wf (hs : form.engine.Shaped form.definition.inner.engine)
    (h : form.node identity = some node) {p : Pointer} (hp : node.binding = some p)
    (hk : node.definition.semanticKind.any SemanticKind.isStructure = true) {seed : Value}
    (hseed : node.definition.creationSeed = some seed) : seed.WF := by
  have hd := form.engine_wf
  obtain ⟨g, hinst, hshows⟩ := node_shows hs h hp
  rw [hinst.creationSeed] at hseed
  rw [hinst.semanticKind] at hk
  cases hshows with
  | object o ho _ hg _ =>
    subst hg
    cases hseed
    exact hd.object_seed_wf o ho
  | itemObject a i state _ o ha _ ho _ _ hg _ =>
    subst hg
    cases hseed
    exact (hd.template_wf _ (hs.array_mem ha)).object_seed_wf o ho
  | array a ha _ hg _ =>
    subst hg
    cases hseed
    exact hd.array_seed_wf _ (hs.array_mem ha)
  | control c _ _ hg =>
    subst hg
    simp only [generatedControl, controlSemanticKind] at hk
    cases hkind : c.definition.kind <;> rw [hkind] at hk <;> cases hk
  | unsupported u _ _ hg _ =>
    subst hg
    cases hseed

theorem creationSeed_wf (hs : form.engine.Shaped form.definition.inner.engine)
    (h : form.node identity = some node) {p : Pointer} (hp : node.binding = some p)
    (hk : node.definition.semanticKind.any SemanticKind.isStructure = true) {seed : Value}
    (hseed : form.creationSeed identity = .ok seed) : seed.WF := by
  obtain ⟨_, _, _, hdef, _⟩ := node_eq_some.mp h
  unfold Form.creationSeed at hseed
  rw [form.inner_wf.node_eq, hdef, Option.bind_some] at hseed
  split at hseed
  · cases hseed
  · rename_i seed' hseed'
    cases hseed
    exact seed_wf hs h hp hk hseed'

end Form

end Schemaform
