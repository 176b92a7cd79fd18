import Schemaform.Form.Check
import Schemaform.Form.Reachable

/-!
# Form.ReadOnly

Who may write below a location that is annotated `readOnly`.

* `GeneratedNode.AtOrAbove`, `ReadOnlyAbove`: the annotated locations around a binding.
* `Covered`: the locations whose annotation the view looks up. Inside an item template that is only
  what the template has a node for.
* `isReadOnly_iff`: a node is read-only when the form is or the node is covered.
* `Operation.permission`, `not_offered`: an operation whose flag is not set is refused.
* `refuses_of_none`, `read_only_authority`: what then happens to the operations on it.
-/

namespace Schemaform

/-- The location, in some item when it belongs to an item template, encloses the binding. -/
def GeneratedNode.AtOrAbove (scope : GeneratedNode) (binding : Pointer) : Prop :=
  match scope.owningArrayBinding with
  | none => binding.startsWith scope.binding = true
  | some array => ∃ index,
    binding.startsWith (Engine.arrayItemPointer array index ++ scope.binding) = true

/-- The root or a location at or above the binding is annotated `readOnly`. -/
def Engine.FormDefinition.ReadOnlyAbove (engine : Engine.FormDefinition) (binding : Pointer) :
    Prop :=
  engine.rootAnnotations.readOnly = true ∨ ∃ scope ∈ generatedNodes engine,
    scope.dataSchemaAnnotations.readOnly = true ∧ scope.AtOrAbove binding

namespace DefinitionInner

variable (definition : DefinitionInner)

/-- The annotated location is the root's, lies outside all item templates, or is shown by a node
of the item template that the given node belongs to. -/
def Covered (node : DefinitionNode) (binding : Pointer) : Prop :=
  definition.engine.rootAnnotations.readOnly = true ∨ ∃ scope ∈ generatedNodes definition.engine,
    scope.dataSchemaAnnotations.readOnly = true ∧ scope.AtOrAbove binding ∧
    (scope.owningArrayBinding = none ∨ ∃ shown ∈ definition.nodes,
      shown.owningArray = node.owningArray ∧ definition.Instantiates shown scope)

variable {definition}

theorem startsWith_item {array p q : Pointer} {i j : Nat}
    (h : (Engine.arrayItemPointer array i ++ p).startsWith (Engine.arrayItemPointer array j ++ q)
      = true) : p.startsWith q = true := by
  obtain ⟨s, hs⟩ := Pointer.startsWith_iff.mp h
  simp only [Engine.arrayItemPointer, List.append_assoc, List.cons_append, List.nil_append] at hs
  have htail := (List.cons.inj (List.append_cancel_left hs)).2
  exact Pointer.startsWith_iff.mpr ⟨s, htail⟩

theorem bindingHasAnnotation_iff (h : definition.WellFormed) {binding : Pointer} :
    definition.bindingHasAnnotation binding (·.readOnly) = true ↔
      definition.engine.rootAnnotations.readOnly = true ∨
      ∃ scope ∈ generatedNodes definition.engine, scope.dataSchemaAnnotations.readOnly = true ∧
        scope.AtOrAbove binding ∧ scope.owningArrayBinding = none := by
  unfold bindingHasAnnotation
  rw [h.annotationScopes, annotationScopesOf, List.any_cons, Bool.or_eq_true]
  refine or_congr (by simp) ?_
  simp only [List.any_map, List.any_filter, List.any_eq_true, Function.comp_apply, Option.all_some,
    Bool.and_eq_true, Option.isNone_iff_eq_none]
  constructor
  · rintro ⟨scope, hscope, howner, hro, habove⟩
    refine ⟨scope, hscope, hro, ?_, howner⟩
    rw [GeneratedNode.AtOrAbove, howner]
    exact habove
  · rintro ⟨scope, hscope, hro, habove, howner⟩
    rw [GeneratedNode.AtOrAbove, howner] at habove
    exact ⟨scope, hscope, howner, hro, habove⟩

end DefinitionInner

namespace Form

variable {form : Form} {identity : InstanceIdentity} {node : NodeView} {binding : Pointer}

theorem ownerBinding_congr {d e : DefinitionNode} (h : d.owningArray = e.owningArray) :
    form.definition.inner.ownerBinding d = form.definition.inner.ownerBinding e := by
  rw [DefinitionInner.ownerBinding, DefinitionInner.ownerBinding, h]

/-- A bound definition node instantiates something generated. -/
theorem instantiates_of_bound {d : DefinitionNode} (hd : d ∈ form.definition.inner.nodes)
    {p : Pointer} (hp : d.binding = some p) :
    ∃ g ∈ generatedNodes form.definition.inner.engine,
      form.definition.inner.Instantiates d g ∧ g.binding = p := by
  rcases form.inner_wf.nodes d hd with ⟨g, hg, hinst⟩ | hpres
  · exact ⟨g, hg, hinst, Option.some.inj (hinst.binding.symm.trans hp)⟩
  · rw [hpres.binding] at hp
    cases hp

theorem covered_of_shown {shown : DefinitionNode} {p : Pointer}
    (hnode : form.node identity = some node) (hb : node.binding = some binding)
    (hshown : shown ∈ form.definition.inner.nodes)
    (howner : shown.owningArray = node.definition.owningArray)
    (hro : shown.dataSchemaAnnotations.readOnly = true) (hp : shown.binding = some p)
    (habove : ∃ q, node.definition.binding = some q ∧ q.startsWith p = true) :
    form.definition.inner.Covered node.definition binding := by
  obtain ⟨scope, hscope, hinst, rfl⟩ := instantiates_of_bound hshown hp
  obtain ⟨q, hq, hpre⟩ := habove
  obtain ⟨g, _, hg, hplace⟩ := node_bound hnode hb
  obtain rfl := Option.some.inj (hq.symm.trans hg.binding)
  have hscopeOwner : scope.owningArrayBinding = g.owningArrayBinding :=
    hinst.ownerBinding.symm.trans ((ownerBinding_congr howner).trans hg.ownerBinding)
  refine .inr ⟨scope, hscope, hinst.dataSchemaAnnotations ▸ hro, ?_, .inr ⟨shown, hshown, howner,
    hinst⟩⟩
  cases hplace with
  | static _ hnone hat =>
    rw [GeneratedNode.AtOrAbove, hscopeOwner, hnone, hat]
    exact hpre
  | inItem _ array i _ _ _ hsome _ _ hat =>
    rw [GeneratedNode.AtOrAbove, hscopeOwner, hsome, hat]
    obtain ⟨s, hs⟩ := Pointer.startsWith_iff.mp hpre
    exact ⟨i, Pointer.startsWith_iff.mpr ⟨s, by simp [hs]⟩⟩

theorem covered_of_isReadOnly (hnode : form.node identity = some node)
    (hb : node.binding = some binding) (h : node.isReadOnly = true) :
    form.readOnly = true ∨ form.definition.inner.Covered node.definition binding := by
  obtain ⟨_, hform, hidentity, hd, _⟩ := node_eq_some.mp hnode
  have hmem := List.mem_of_getElem? hd
  obtain ⟨g, _, hg, _⟩ := node_bound hnode hb
  simp only [NodeView.isReadOnly, NodeView.hasAnnotation, hform, hidentity, hb, Option.any_some,
    Bool.or_eq_true, Bool.and_eq_true] at h
  rcases h with h | (h | ⟨_, h⟩) | h
  · exact .inl h
  · exact .inr (covered_of_shown hnode hb hmem rfl h hg.binding
      ⟨_, hg.binding, Pointer.startsWith_self _⟩)
  · right
    rw [DefinitionInner.templateHasAnnotation, hd] at h
    cases howner : node.definition.owningArray with
    | none => simp [howner] at h
    | some owner =>
      simp only [howner, hg.binding, List.any_eq_true, Bool.and_eq_true, beq_iff_eq,
        Option.any_eq_true] at h
      obtain ⟨shown, hshown, ⟨hsame, hro⟩, p, hp, hpre⟩ := h
      exact covered_of_shown hnode hb hshown (hsame.trans howner.symm) hro hp
        ⟨_, hg.binding, hpre⟩
  · right
    rcases (DefinitionInner.bindingHasAnnotation_iff form.inner_wf).mp h with h | h
    · exact .inl h
    · obtain ⟨scope, hscope, hro, habove, hnone⟩ := h
      exact .inr ⟨scope, hscope, hro, habove, .inl hnone⟩

/-- A location shown in the item template is looked up there. -/
theorem templateHasAnnotation_of_shown (hnode : form.node identity = some node)
    (hb : node.binding = some binding) {scope : GeneratedNode}
    (hro : scope.dataSchemaAnnotations.readOnly = true) (habove : scope.AtOrAbove binding)
    {shown : DefinitionNode} (hshown : shown ∈ form.definition.inner.nodes)
    (howner : shown.owningArray = node.definition.owningArray)
    (hinst : form.definition.inner.Instantiates shown scope) {array : Pointer}
    (hscope : scope.owningArrayBinding = some array) :
    identity.item.isSome = true ∧
      form.definition.inner.templateHasAnnotation identity.node (·.readOnly) = true := by
  obtain ⟨_, _, _, hd, hitem⟩ := node_eq_some.mp hnode
  obtain ⟨g, _, hg, hplace⟩ := node_bound hnode hb
  have hsome : shown.owningArray.isSome = true := by rw [hinst.owner, hscope]; rfl
  rw [howner] at hsome
  obtain ⟨owner, hown⟩ := Option.isSome_iff_exists.mp hsome
  have hscopeOwner : g.owningArrayBinding = some array :=
    hg.ownerBinding.symm.trans
      ((ownerBinding_congr howner.symm).trans (hinst.ownerBinding.trans hscope))
  cases hplace with
  | static _ hnone _ =>
    rw [hnone] at hscopeOwner
    cases hscopeOwner
  | inItem item a i _ hitemOf _ hgOwner _ _ hat =>
    refine ⟨by rw [hitemOf]; rfl, ?_⟩
    obtain rfl := Option.some.inj (hgOwner.symm.trans hscopeOwner)
    rw [GeneratedNode.AtOrAbove, hscope, hat] at habove
    obtain ⟨_, habove⟩ := habove
    have hpre := DefinitionInner.startsWith_item habove
    rw [DefinitionInner.templateHasAnnotation, hd]
    simp only [hown, hg.binding, List.any_eq_true, Bool.and_eq_true, beq_iff_eq,
      Option.any_eq_true]
    exact ⟨shown, hshown, ⟨howner.trans hown, hinst.dataSchemaAnnotations ▸ hro⟩, _, hinst.binding,
      hpre⟩

theorem isReadOnly_of_covered (hnode : form.node identity = some node)
    (hb : node.binding = some binding)
    (h : form.readOnly = true ∨ form.definition.inner.Covered node.definition binding) :
    node.isReadOnly = true := by
  obtain ⟨_, hform, hidentity, _, _⟩ := node_eq_some.mp hnode
  have hbinding : form.definition.inner.bindingHasAnnotation binding (·.readOnly) = true ↔ _ :=
    DefinitionInner.bindingHasAnnotation_iff form.inner_wf
  simp only [NodeView.isReadOnly, NodeView.hasAnnotation, hform, hidentity, hb, Option.any_some,
    Bool.or_eq_true, Bool.and_eq_true]
  rcases h with h | h | ⟨scope, hscope, hro, habove, hcase⟩
  · exact .inl h
  · exact .inr (.inr (hbinding.mpr (.inl h)))
  · cases hsome : scope.owningArrayBinding with
    | none => exact .inr (.inr (hbinding.mpr (.inr ⟨scope, hscope, hro, habove, hsome⟩)))
    | some array =>
      rcases hcase with hnone | ⟨shown, hshown, howner, hinst⟩
      · rw [hsome] at hnone
        cases hnone
      · exact .inr (.inl (.inr (templateHasAnnotation_of_shown hnode hb hro habove hshown howner
          hinst hsome)))

theorem isReadOnly_iff (hnode : form.node identity = some node)
    (hb : node.binding = some binding) : node.isReadOnly = true ↔
      form.readOnly = true ∨ form.definition.inner.Covered node.definition binding :=
  ⟨covered_of_isReadOnly hnode hb, isReadOnly_of_covered hnode hb⟩

/-! ## Refusal -/

end Form

/-- The node a user operation is called on. -/
def Operation.target : Operation → Option InstanceIdentity
  | .inputText target _ | .blur target | .setValue target _ | .setNull target
  | .removeValue target | .replaceValue target _ | .materialize target | .appendItem target
  | .insertItemBefore target _ | .removeItem target _ | .moveItem _ target _
  | .toggleChoice target _ => some target
  | _ => none

/-- The item a user operation is given. -/
def Operation.itemArgument : Operation → Option ItemIdentity
  | .insertItemBefore _ item | .removeItem _ item | .moveItem _ _ item => some item
  | _ => none

/-- The flag of `allowed_operations` that covers a user operation. -/
def Operation.permission : Operation → Option (AllowedOperations → Bool)
  | .inputText _ _ => some (·.inputText)
  | .setValue _ _ => some (·.setValue)
  | .setNull _ => some (·.setNull)
  | .removeValue _ => some (·.removeValue)
  | .replaceValue _ _ => some (·.replaceValue)
  | .materialize _ => some (·.materialize)
  | .appendItem _ | .insertItemBefore _ _ => some (·.appendItem)
  | .removeItem _ _ => some (·.removeItem)
  | .moveItem _ _ _ => some (·.moveItem)
  | .toggleChoice _ _ => some (·.toggleChoice)
  | _ => none

theorem Operation.permission_none {operation : Operation} {allowed : AllowedOperations → Bool}
    (h : operation.permission = some allowed) : allowed {} = false := by
  cases operation <;> cases h <;> rfl

namespace Form

variable {form : Form} {identity : InstanceIdentity} {node : NodeView} {binding : Pointer}

/-- Every user operation on the node is refused, whatever its values and items of this form are. -/
def Refuses (form : Form) (identity : InstanceIdentity) : Prop :=
  ∀ operation : Operation, operation.target = some identity →
    (∀ item, operation.itemArgument = some item → item.form = form.id) →
    form.step operation = (form, .error (.user .operationNotAllowed))

theorem bindingForOperation_refused (hnode : form.node identity = some node)
    {allowed : AllowedOperations → Bool} (h : allowed node.allowedOperations = false) :
    form.bindingForOperation identity allowed = .error .operationNotAllowed := by
  obtain ⟨hid, _⟩ := node_eq_some.mp hnode
  simp [bindingForOperation, hid, hnode, h]

theorem checkBlur_refused (hnode : form.node identity = some node)
    (h : node.isReadOnly = true ∨ node.definition.kind ≠ .control) :
    form.checkBlur identity = .error .operationNotAllowed := by
  obtain ⟨hid, _⟩ := node_eq_some.mp hnode
  unfold checkBlur
  rw [if_neg (not_not.mpr hid), hnode, Option.any_some]
  cases hro : node.isReadOnly with
  | true => rfl
  | false =>
    rw [hro] at h
    have hk : (node.definition.kind == .control) = false := by simpa using h
    simp [Option.filter, hk]

theorem checkItem_ok {item : ItemIdentity} (h : item.form = form.id) :
    form.checkItem item = .ok () := if_neg (not_not.mpr h)

/-- What a node does not offer is refused. -/
theorem not_offered (hnode : form.node identity = some node) {operation : Operation}
    {allowed : AllowedOperations → Bool} (htarget : operation.target = some identity)
    (hpermission : operation.permission = some allowed)
    (h : allowed node.allowedOperations = false)
    (hown : ∀ item, operation.itemArgument = some item → item.form = form.id) :
    form.step operation = (form, .error (.user .operationNotAllowed)) := by
  have hrefused := bindingForOperation_refused hnode h
  cases operation <;> cases hpermission <;> cases htarget
  case inputText text =>
    have hcheck : form.checkInputText identity text = .error .operationNotAllowed := by
      rw [checkInputText, hrefused]
      rfl
    simp only [step, inputText, hcheck]
    rfl
  case setValue value => simp only [step, setValue, hrefused]; rfl
  case setNull => simp only [step, setNull, hrefused]; rfl
  case removeValue => simp only [step, removeValue, hrefused]; rfl
  case replaceValue value => simp only [step, replaceValue, hrefused]; rfl
  case materialize => simp only [step, materialize, hrefused]; rfl
  case appendItem => simp only [step, appendItem, hrefused]; rfl
  case insertItemBefore item =>
    simp only [step, insertItemBefore, checkItem_ok (hown item rfl), attempt, hrefused]
    rfl
  case removeItem item =>
    simp only [step, removeItem, checkItem_ok (hown item rfl), attempt, hrefused]
    rfl
  case moveItem direction item =>
    simp only [step, moveItem, checkItem_ok (hown item rfl), attempt, hrefused]
    rfl
  case toggleChoice value => simp only [step, toggleChoice, hrefused]; rfl

theorem refuses_of_none (hnode : form.node identity = some node)
    (hnone : node.allowedOperations = {})
    (hblur : node.isReadOnly = true ∨ node.definition.kind ≠ .control) : form.Refuses identity := by
  intro operation htarget hown
  cases hpermission : operation.permission with
  | some allowed =>
    refine not_offered hnode htarget hpermission ?_ hown
    rw [hnone]
    exact Operation.permission_none hpermission
  | none =>
    cases operation <;> cases hpermission <;> cases htarget
    simp only [step, blur, checkBlur_refused hnode hblur]
    rfl

end Form

/-- An object that offers nothing as it stands: it is there and may not be removed, or it is
missing where none can be put. -/
def NodeView.Inert (node : NodeView) : Prop :=
  node.definition.kind ≠ .control ∧ (node.definition.semanticKind = some .fixedObject →
    match node.currentData with
    | some value => value.isObject = true ∧ node.definition.required = true
    | none => node.parentIsObject = false)

namespace Form

variable {form : Form} {identity : InstanceIdentity} {node : NodeView} {binding : Pointer}

/-- What a bound node that is no control shows. -/
theorem semanticKind_of_notControl (hnode : form.node identity = some node)
    (hb : node.binding = some binding) (hk : node.definition.kind ≠ .control) :
    node.definition.semanticKind = some .fixedObject ∨ node.definition.semanticKind = none := by
  obtain ⟨g, hg, hinst, _⟩ := node_bound hnode hb
  rw [hinst.kind] at hk
  rw [hinst.semanticKind]
  rcases mem_generatedNodes.mp hg with ⟨o, _, rfl⟩ | ⟨c, _, rfl⟩ | ⟨d, _, hcase⟩ | ⟨u, _, rfl⟩
  · exact .inl rfl
  · exact absurd rfl hk
  · rcases hcase with rfl | ⟨o, _, rfl⟩ | ⟨c, _, rfl⟩
    · exact absurd rfl hk
    · exact .inl rfl
    · exact absurd rfl hk
  · exact .inr rfl

theorem objectOperations_eq_none :
    node.objectOperations = {} ↔ match node.currentData with
      | some value => value.isObject = true ∧ node.definition.required = true
      | none => node.parentIsObject = false := by
  unfold NodeView.objectOperations
  cases node.currentData with
  | none => simp
  | some value => simp [and_comm]

theorem allowedOperations_of_inert (hnode : form.node identity = some node)
    (hb : node.binding = some binding) (h : node.Inert) : node.allowedOperations = {} := by
  obtain ⟨hk, hobject⟩ := h
  unfold NodeView.allowedOperations
  split
  · rfl
  · rcases semanticKind_of_notControl hnode hb hk with hs | hs
    · rw [if_neg (by simp [hs]), if_pos hs]
      exact objectOperations_eq_none.mpr (hobject hs)
    · have hstate : node.valueState = none := by simp [NodeView.valueState, hs]
      simp [hs, hstate]

/-- A writable node that nothing can be done to is no control and, if an object, inert. -/
theorem inert_of_refuses (hnode : form.node identity = some node) (hb : node.binding = some binding)
    (hro : node.isReadOnly = false) (hnone : node.allowedOperations = {})
    (hrefuses : form.Refuses identity) : node.Inert := by
  constructor
  · intro hk
    obtain ⟨hid, _⟩ := node_eq_some.mp hnode
    have hcheck : form.checkBlur identity = .ok binding := by
      unfold checkBlur
      simp [hid, hnode, hro, Option.filter, hk, hb]
    have hstep := hrefuses (.blur identity) rfl nofun
    simp only [step, blur, hcheck, attempt] at hstep
    -- leaving a control is answered with a transition, or it names a control nobody knows
    split at hstep
    · cases congrArg Prod.snd hstep
    · cases congrArg Prod.snd hstep
  · intro hs
    unfold NodeView.allowedOperations at hnone
    rw [hro, if_neg Bool.false_ne_true, if_neg (by simp [hs]), if_pos hs] at hnone
    exact objectOperations_eq_none.mp hnone

/-- Nothing may be done at a bound node, exactly where an annotation around it is looked up, the
whole form is read-only or the node is an object that offers nothing anyway. -/
theorem read_only_authority (hnode : form.node identity = some node)
    (hb : node.binding = some binding) :
    node.allowedOperations = {} ∧ form.Refuses identity ↔
      form.readOnly = true ∨ form.definition.inner.Covered node.definition binding ∨ node.Inert := by
  rw [← or_assoc, ← isReadOnly_iff hnode hb]
  constructor
  · rintro ⟨hnone, hrefuses⟩
    cases hro : node.isReadOnly with
    | true => exact .inl rfl
    | false => exact .inr (inert_of_refuses hnode hb hro hnone hrefuses)
  · rintro (hro | hinert)
    · have hnone : node.allowedOperations = {} := by simp [NodeView.allowedOperations, hro]
      exact ⟨hnone, refuses_of_none hnode hnone (.inl hro)⟩
    · have hnone := allowedOperations_of_inert hnode hb hinert
      exact ⟨hnone, refuses_of_none hnode hnone (.inr hinert.1)⟩

end Form

/-! ## A template without a node for an annotated object -/

namespace Sample

def text : Engine.ControlDefinition where
  binding := ["o", "x"]
  parentBinding := some ["o"]
  kind := .string
  choices := []
  acceptsNull := false
  annotations := {}
  creationSeed := some (.string "")
  required := false

def itemObject (binding : Pointer) (annotations : DataSchemaAnnotations) :
    Engine.ObjectDefinition where
  binding := binding
  parentBinding := none
  annotations := annotations
  required := true
  creationSeed := .object []

/-- Items `{"o": {"x": string}}` with `o` annotated `readOnly`. -/
def records : Engine.ArrayDefinition :=
  { array with itemTemplate :=
    ⟨[text], [itemObject [] {}, itemObject ["o"] { readOnly := true }], .object []⟩ }

/-- A layout whose item template holds the control of `/o/x` only. The compiler wraps it in the
item object. -/
def recordsInner : DefinitionInner where
  engine := ⟨[], [], [records], [], {}⟩
  validator := ⟨fun _ => []⟩
  parser := Engine.Sample.parser
  nodes := [.root {} [1], .showing 1 none (generatedArray records) [2],
    .showing 2 (some 1) (generatedObject (some ["a"]) (itemObject [] {})) [3],
    .showing 3 (some 1) (generatedControl (some ["a"]) text) []]
  annotationScopes := annotationScopesOf ⟨[], [], [records], [], {}⟩
  capabilityFindings := []

def recordsDefinition : FormDefinition where
  inner := recordsInner
  wellFormed :=
    DefinitionInner.wellFormed_of_checked (by decide) (by decide) (by decide) (by decide) rfl

def recordsData : Value :=
  .object [("a", .array [.object [("o", .object [("x", .string "s")])]])]

def record : Form where
  definition := recordsDefinition
  engine := {
    controls := []
    arrays := [⟨records, [⟨1, [⟨text, none, none, false⟩]⟩], false⟩]
    nextItemIdentity := 2
    baselineArrayIdentities := [[1]]
    baseline := recordsData
    formData := recordsData
    externalFindingBatches := []
    submissionAttempted := false
    dataRevision := 0
    stateRevision := 0 }
  validation := .valid
  externalFindingBatches := []
  externalFindingLimits := {}
  limits := {}
  findingVisibility := {}
  readOnly := false
  id := 0

theorem record_reachable : formSystem.Reachable record :=
  .init ⟨{ definition := recordsDefinition, formData := recordsData }, 0, by decide, rfl⟩

/-- The control of `/o/x` in the only item. -/
def recordText : NodeView :=
  ⟨record, record.itemIdentity 3 (record.item 1), .showing 3 (some 1)
    (generatedControl (some ["a"]) text) []⟩

theorem recordText_above : recordsInner.engine.ReadOnlyAbove ["a", "0", "o", "x"] :=
  .inr ⟨generatedObject (some ["a"]) (itemObject ["o"] { readOnly := true }), by decide, rfl, 0,
    by decide⟩

end Sample

namespace Form

open Sample

theorem read_only_authority_record :
    recordText.allowedOperations = {} ∧ record.Refuses recordText.identity ↔
      record.readOnly = true ∨
        recordsInner.Covered recordText.definition ["a", "0", "o", "x"] ∨ recordText.Inert :=
  have hnode : record.node recordText.identity = some recordText := rfl
  read_only_authority hnode rfl

/-- The text below the annotated object can be edited. -/
theorem template_drops_annotation : formSystem.Reachable record ∧
    record.node recordText.identity = some recordText ∧
    recordText.binding = some ["a", "0", "o", "x"] ∧
    recordsInner.engine.ReadOnlyAbove ["a", "0", "o", "x"] ∧
    ¬ (recordText.allowedOperations = {} ∧ record.Refuses recordText.identity) := by
  refine ⟨record_reachable, rfl, rfl, recordText_above, fun h => ?_⟩
  have hnone : recordText.allowedOperations.inputText = false := by rw [h.1]
  cases hnone

end Form

end Schemaform
