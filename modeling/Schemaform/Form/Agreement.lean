import Schemaform.Engine.Progress
import Schemaform.Form.ReadOnly
import Schemaform.Form.Topology

/-!
# Form.Agreement

What a node offers against what the call then does.

* `NodeView.Documented`: the arguments an operation is documented for.
* `Form.Agrees`: an offered call succeeds or meets a limit, any other is refused.
* `NodeView.MemberRemoval`: the offer the engine does not honour, removing an optional value that
  an array holds.
* `allowed_operations_agree`: everything else agrees.
-/

namespace Schemaform

open Engine (ControlState ControlDefinition controlValueIsCompatible)

namespace NodeView

variable (node : NodeView)

/-- A value other than null that the node's control accepts. -/
def Accepts (value : Value) : Prop :=
  value.isNull = false ∧ ∃ binding, node.binding = some binding ∧
    node.form.engine.controlAcceptsValue binding value = some true

/-- One of the `length` items of the node's array, at `index`. -/
def HoldsItem (item : ItemIdentity) (index length : Nat) : Prop :=
  item.form = node.form.id ∧ ∃ binding ids, node.binding = some binding ∧
    node.form.engine.arrayItemIdentities binding = some ids ∧ ids.length = length ∧
    ids.findIdx? (· == item.localId) = some index

/-- The arguments an operation is documented for. -/
def Documented : Operation → Prop
  | .setValue _ value => node.Accepts value
  | .replaceValue _ value =>
    match node.definition.semanticKind with
    | some .fixedObject => value.isObject = true
    | some .homogeneousArray => value.isArray = true
    | _ => node.Accepts value
  | .insertItemBefore _ item | .removeItem _ item => ∃ index length, node.HoldsItem item index length
  | .moveItem .up _ item => ∃ index length, node.HoldsItem item index length ∧ index ≠ 0
  | .moveItem .down _ item =>
    ∃ index length, node.HoldsItem item index length ∧ index + 1 < length
  | .toggleChoice _ value =>
    ∃ option ∈ node.definition.choiceOptions, jsonValuesEqual option value = true
  | _ => True

/-- An optional value the user could remove, were it not held by an array. -/
def MemberRemoval : Prop :=
  node.isReadOnly = false ∧ node.definition.semanticKind ≠ none ∧
  node.definition.required = false ∧ node.currentData.isSome = true ∧ node.parentIsObject = false

end NodeView

/-- The call succeeded or met a limit. -/
def Served (result : Except OperationError Transition) : Prop :=
  (∃ t, result = .ok t) ∨ ∃ error, result = .error (.user (.resourceLimit error))

/-- The calls on a node do what its allowed operations say. -/
structure Form.Agrees (form : Form) (identity : InstanceIdentity) (node : NodeView) : Prop where
  served : ∀ operation allowed, Operation.target operation = some identity →
    operation.permission = some allowed → allowed node.allowedOperations = true →
    node.Documented operation → Served (form.step operation).2
  refused : ∀ operation allowed, Operation.target operation = some identity →
    operation.permission = some allowed → allowed node.allowedOperations = false →
    (∀ item, operation.itemArgument = some item → item.form = form.id) →
    (form.step operation).2 = .error (.user .operationNotAllowed)

/-! ## Results that fail on a limit only -/

def Limited {α : Type} (result : Except UserOperationError α) : Prop :=
  (∃ a, result = .ok a) ∨ ∃ error, result = .error (.resourceLimit error)

theorem Limited.ok {α : Type} (a : α) : Limited (.ok a) := .inl ⟨a, rfl⟩

theorem Limited.bind {α β : Type} {x : Except UserOperationError α}
    {f : α → Except UserOperationError β} (hx : Limited x)
    (hf : ∀ a, x = .ok a → Limited (f a)) : Limited (x >>= f) := by
  rcases hx with ⟨a, rfl⟩ | ⟨error, rfl⟩
  · exact hf a rfl
  · exact .inr ⟨error, rfl⟩

theorem Limited.attempt {α β : Type} {form : Form} {check : Except UserOperationError α}
    {next : α → Form × Except UserOperationError β} (hcheck : Limited check)
    (hnext : ∀ a, check = .ok a → Limited (next a).2) : Limited (attempt form check next).2 := by
  rcases hcheck with ⟨a, rfl⟩ | ⟨error, rfl⟩
  · exact hnext a rfl
  · exact .inr ⟨error, rfl⟩

theorem Limited.mapError {α : Type} (x : Except ResourceLimitError α) :
    Limited (x.mapError .resourceLimit) := by
  cases x with
  | ok a => exact .inl ⟨a, rfl⟩
  | error e => exact .inr ⟨e, rfl⟩

theorem Limited.served {result : Form × Except UserOperationError Transition}
    (h : Limited result.2) : Served (outcome .user result).2 := by
  unfold outcome Served
  rcases h with ⟨t, ht⟩ | ⟨error, he⟩
  · exact .inl ⟨t, by rw [ht]; rfl⟩
  · exact .inr ⟨error, by rw [he]; rfl⟩

namespace Form

variable {form : Form} {identity : InstanceIdentity} {node : NodeView} {binding : Pointer}

theorem checkBound_limited (dimension : String) (maximum observed : Nat) (binding : Pointer) :
    Limited (checkBound dimension maximum observed binding) := by
  unfold checkBound
  split
  · exact .inr ⟨_, rfl⟩
  · exact .ok ()

theorem checkCandidate_limited (candidate : Value) : Limited (form.checkCandidate candidate) :=
  Limited.mapError _

theorem checkInputAt_limited (value : Value) (binding : Pointer) :
    Limited (form.checkInputAt value binding) := Limited.mapError _

theorem candidateEngine_limited {α : Type} {edit : EngineEdit α}
    (h : ∃ engine a, edit form.engine binding = (engine, .ok a)) :
    Limited (form.candidateEngine binding edit) := by
  obtain ⟨engine, a, he⟩ := h
  unfold candidateEngine
  rw [he]
  exact Limited.bind (checkCandidate_limited engine.formData) fun _ _ => .ok _

theorem applyScalarEdit_limited {edit : EngineEdit Unit}
    (h : ∃ engine a, edit form.engine binding = (engine, .ok a)) :
    Limited (form.applyScalarEdit identity binding edit).2 :=
  Limited.attempt (candidateEngine_limited h) fun _ _ => .ok _

theorem applyStructuralEdit_limited {edit : EngineEdit Unit}
    (h : ∃ engine a, edit form.engine binding = (engine, .ok a)) :
    Limited (form.applyStructuralEdit binding edit).2 :=
  Limited.attempt (candidateEngine_limited h) fun _ _ => .ok _

theorem bindingForOperation_permitted (hnode : form.node identity = some node)
    (allowed : AllowedOperations → Bool) (h : allowed node.allowedOperations = true)
    (hb : node.binding = some binding) :
    form.bindingForOperation identity allowed = .ok binding :=
  bindingForOperation_eq_ok.mpr ⟨node, hnode, h, hb⟩

/-! ## What an offer says -/

/-- An offer is one of an array, of an object or of a scalar in some state. -/
theorem allowed_cases (allowed : AllowedOperations → Bool) (hnone : allowed {} = false)
    (h : allowed node.allowedOperations = true) :
    node.definition.semanticKind = some .homogeneousArray ∧ allowed node.arrayOperations = true ∨
    node.definition.semanticKind = some .fixedObject ∧ allowed node.objectOperations = true ∨
    node.definition.semanticKind.any SemanticKind.isScalar = true ∧ ∃ state,
      node.valueState = some state ∧ allowed (node.scalarOperations state) = true := by
  unfold NodeView.allowedOperations at h
  split at h
  · rw [hnone] at h
    cases h
  split at h
  · rename_i hk
    exact .inl ⟨hk, h⟩
  split at h
  · rename_i hk
    exact .inr (.inl ⟨hk, h⟩)
  cases hs : node.valueState with
  | none =>
    rw [hs, hnone] at h
    cases h
  | some state =>
    rw [hs] at h
    refine .inr (.inr ⟨?_, state, rfl, h⟩)
    unfold NodeView.valueState at hs
    by_cases hscalar : node.definition.semanticKind.any SemanticKind.isScalar = true
    · exact hscalar
    · rw [Bool.eq_false_of_not_eq_true hscalar] at hs
      cases hs

/-- A node that shows something supported is bound. -/
theorem bound_of_semanticKind (hnode : form.node identity = some node)
    (hk : node.definition.semanticKind ≠ none) : ∃ binding, node.binding = some binding := by
  obtain ⟨_, hform, hidentity, hd, hitem⟩ := node_eq_some.mp hnode
  rcases form.inner_wf.nodes _ (List.mem_of_getElem? hd) with ⟨g, _, hinst⟩ | hpres
  · unfold NodeView.binding
    rw [hidentity, hform, hinst.binding]
    cases hi : identity.item with
    | none => exact ⟨g.binding, rfl⟩
    | some item =>
      rw [hi] at hitem
      obtain ⟨pointer, hpointer⟩ := Option.isSome_iff_exists.mp hitem.2.2
      refine ⟨pointer ++ g.binding, ?_⟩
      dsimp only
      rw [hpointer]
      rfl
  · exact absurd hpres.semanticKind hk

/-- The control a scalar node shows. -/
structure ScalarAt (form : Form) (node : NodeView) (binding : Pointer) (c : ControlState)
    (location : Engine.ControlLocation) : Prop where
  bound : node.binding = some binding
  form_eq : node.form = form
  location_eq : form.engine.controlLocation binding = some location
  state_eq : form.engine.controlState location = some c
  control_eq : form.engine.control binding = some c
  semanticKind : node.definition.semanticKind = some (controlSemanticKind c.definition)
  acceptsNull : node.definition.acceptsNull = c.definition.acceptsNull

theorem scalarAt (hinv : form.Inv) (hnode : form.node identity = some node)
    (hk : node.definition.semanticKind.any SemanticKind.isScalar = true) :
    ∃ binding c location, form.ScalarAt node binding c location := by
  have hsome : node.definition.semanticKind ≠ none := by
    intro hnone
    rw [hnone] at hk
    cases hk
  obtain ⟨binding, hb⟩ := bound_of_semanticKind hnode hsome
  obtain ⟨g, hinst, hshows⟩ := node_shows hinv.shaped hnode hb
  rw [hinst.semanticKind] at hk
  cases hshows with
  | object o _ _ hg _ =>
    subst hg
    cases hk
  | itemObject a i state item o _ _ _ _ _ hg _ =>
    subst hg
    cases hk
  | array a _ _ hg _ =>
    subst hg
    cases hk
  | unsupported u _ _ hg _ =>
    subst hg
    cases hk
  | control c location hat hg =>
    subst hg
    exact ⟨binding, c, location, hb, (node_eq_some.mp hnode).2.1,
      Engine.Form.controlLocation_of_at form.engine_wf hinv.shaped hat,
      Engine.Form.controlState_of_at hat,
      Engine.Form.control_of_at form.engine_wf hinv.shaped hat, hinst.semanticKind, hinst.acceptsNull⟩

section Scalar

variable {c : ControlState} {location : Engine.ControlLocation} {state : ScalarValueState}

theorem ScalarAt.currentData (h : form.ScalarAt node binding c location) :
    node.currentData = Pointer.resolve binding form.formData := by
  rw [NodeView.currentData, h.bound, Option.bind_some, h.form_eq]

theorem ScalarAt.parentIsObject (h : form.ScalarAt node binding c location) :
    node.parentIsObject = bindingParentIsObject binding form.formData := by
  rw [NodeView.parentIsObject, h.bound, Option.any_some, h.form_eq]

theorem ScalarAt.accepts (h : form.ScalarAt node binding c location) {value : Value}
    (hv : node.Accepts value) : value.isNull = false ∧
      controlValueIsCompatible c.definition value = true := by
  obtain ⟨hnull, p, hp, haccepts⟩ := hv
  obtain rfl := Option.some.inj (h.bound.symm.trans hp)
  rw [h.form_eq, Engine.Form.controlAcceptsValue, h.control_eq, Option.map_some] at haccepts
  exact ⟨hnull, Option.some.inj haccepts⟩

/-- What the state of a scalar says about its value. -/
theorem ScalarAt.valueState (h : form.ScalarAt node binding c location)
    (hs : node.valueState = some state) :
    match Pointer.resolve binding form.formData with
    | none => state = .missing
    | some value => state ≠ .missing ∧ (state = .null ↔ value.isNull = true) ∧
      (state = .empty ∨ state = .compatible →
        controlValueIsCompatible c.definition value = true) := by
  unfold NodeView.valueState at hs
  rw [h.semanticKind] at hs
  have hscalar : (some (controlSemanticKind c.definition)).any SemanticKind.isScalar = true := by
    unfold controlSemanticKind
    cases c.definition.kind <;> rfl
  rw [hscalar, h.currentData] at hs
  simp only [Bool.not_true, Bool.false_eq_true, if_false, h.bound, Option.any_some, h.form_eq,
    Engine.Form.controlAcceptsValue, h.control_eq, Option.map_some, Option.getD_some] at hs
  cases hv : Pointer.resolve binding form.formData with
  | none =>
    rw [hv] at hs
    exact (Option.some.inj hs).symm
  | some value =>
    rw [hv] at hs
    dsimp only at hs ⊢
    cases hn : value.isNull with
    | true =>
      rw [hn, if_pos rfl] at hs
      cases hs
      simp
    | false =>
      rw [hn, if_neg Bool.false_ne_true] at hs
      cases hc : controlValueIsCompatible c.definition value with
      | true =>
        rw [hc] at hs
        split at hs
        · cases hs
          simp
        · cases hs
          simp
      | false =>
        rw [hc] at hs
        simp at hs
        subst hs
        simp

/-- Whatever is there or can be put there is writable. -/
theorem ScalarAt.writable (h : form.ScalarAt node binding c location)
    (hs : node.valueState = some state)
    (hw : (state != .missing || node.parentIsObject) = true) : Writable binding form.formData := by
  have hspec := h.valueState hs
  cases hv : Pointer.resolve binding form.formData with
  | some value => exact .inl (by rw [hv]; rfl)
  | none =>
    rw [hv] at hspec
    rw [hspec, h.parentIsObject] at hw
    exact .inr hw

end Scalar

/-! ## Scalars -/

theorem scalar_of_allowed (allowed : AllowedOperations → Bool) (hnone : allowed {} = false)
    (harray : allowed node.arrayOperations = false)
    (hobject : allowed node.objectOperations = false)
    (h : allowed node.allowedOperations = true) :
    node.definition.semanticKind.any SemanticKind.isScalar = true ∧ ∃ state,
      node.valueState = some state ∧ allowed (node.scalarOperations state) = true := by
  rcases allowed_cases allowed hnone h with ⟨_, h⟩ | ⟨_, h⟩ | h
  · rw [harray] at h
    cases h
  · rw [hobject] at h
    cases h
  · exact h

theorem not_structure (hnode : form.node identity = some node)
    (hk : node.definition.semanticKind.any SemanticKind.isScalar = true) :
    (form.semanticKind identity).any SemanticKind.isStructure = false := by
  rw [semanticKind, hnode, Option.bind_some]
  exact SemanticKind.not_structure hk

theorem inputText_limited (hinv : form.Inv) (hnode : form.node identity = some node)
    (h : node.allowedOperations.inputText = true) (text : String) :
    Limited (form.inputText identity text).2 := by
  have harray : node.arrayOperations.inputText = false := by
    unfold NodeView.arrayOperations
    split <;> rfl
  obtain ⟨hk, state, hs, hoffer⟩ := scalar_of_allowed (·.inputText) rfl harray rfl h
  obtain ⟨binding, c, location, hat⟩ := scalarAt hinv hnode hk
  simp only [NodeView.scalarOperations, Bool.and_eq_true] at hoffer
  obtain ⟨⟨htextual, hcan⟩, hstate⟩ := hoffer
  have hw := hat.writable hs hcan
  have hkind : c.definition.kind.textual = true := by
    rw [hat.semanticKind, Option.any_some] at htextual
    unfold controlSemanticKind at htextual
    cases hkind : c.definition.kind <;> rw [hkind] at htextual <;> first | rfl | cases htextual
  have hreceives : form.engine.TextReceives binding c.definition := by
    refine ⟨hw, fun current hcurrent => ?_⟩
    have hspec := hat.valueState hs
    have hnull := hat.acceptsNull
    rw [show form.formData = form.engine.formData from rfl, hcurrent] at hspec
    obtain ⟨hmissing, hnullIff, hcompatible⟩ := hspec
    cases state with
    | missing => exact absurd rfl hmissing
    | null =>
      have hisNull := hnullIff.mp rfl
      have haccepts : node.definition.acceptsNull = true := by simpa using hstate
      rw [controlValueIsCompatible, if_pos hisNull, ← hnull]
      exact haccepts
    | empty => exact hcompatible (.inl rfl)
    | compatible => exact hcompatible (.inr rfl)
    | incompatible => simp at hstate
  obtain ⟨edit, hedit⟩ := Engine.Form.prepareTextEdit_succeeds hat.location_eq hat.state_eq hkind
    hreceives text form.numbers
  have hpermitted := bindingForOperation_permitted hnode (·.inputText) h hat.bound
  refine Limited.attempt ?_ fun p hp => ?_
  · unfold checkInputText
    rw [hpermitted]
    refine Limited.bind (.ok binding) fun p hp => ?_
    cases hp
    refine Limited.bind (checkBound_limited _ _ _ _) fun _ _ => ?_
    obtain ⟨metrics, hmetrics⟩ :=
      Engine.Form.prospectiveEditBufferMetrics_succeeds hat.control_eq text
    rw [hmetrics]
    refine Limited.bind (.ok metrics) fun _ _ => ?_
    refine Limited.bind (checkBound_limited _ _ _ _) fun _ _ => ?_
    refine Limited.bind (checkBound_limited _ _ _ _) fun _ _ => ?_
    obtain ⟨candidate, hcandidate⟩ := Engine.Form.prospectiveTextFormData_succeeds hw hedit
    rw [hcandidate]
    refine Limited.bind (.ok candidate) fun p hp => ?_
    cases p with
    | none => exact .ok _
    | some value => exact Limited.bind (checkCandidate_limited value) fun _ _ => .ok _
  · have hbinding := (checkInputText_eq_ok hp).symm.trans hpermitted
    cases hbinding
    obtain ⟨engine, hengine⟩ := Engine.Form.editText_succeeds hw hedit
    simp only [hengine]
    exact .ok _

theorem checkScalar_limited {c : ControlState} {location : Engine.ControlLocation}
    (hat : form.ScalarAt node binding c location) {value : Value} (hv : node.Accepts value) :
    Limited (form.checkScalar binding value) := by
  obtain ⟨hnull, p, hp, haccepts⟩ := hv
  obtain rfl := Option.some.inj (hat.bound.symm.trans hp)
  rw [hat.form_eq] at haccepts
  unfold checkScalar
  rw [haccepts, hnull]
  exact checkInputAt_limited value binding

theorem setValue_limited (hinv : form.Inv) (hnode : form.node identity = some node)
    (h : node.allowedOperations.setValue = true) {value : Value} (hv : node.Accepts value) :
    Limited (form.setValue identity value).2 := by
  have harray : node.arrayOperations.setValue = false := by
    unfold NodeView.arrayOperations
    split <;> rfl
  obtain ⟨hk, state, hs, hoffer⟩ := scalar_of_allowed (·.setValue) rfl harray rfl h
  obtain ⟨binding, c, location, hat⟩ := scalarAt hinv hnode hk
  simp only [NodeView.scalarOperations, Bool.and_eq_true] at hoffer
  unfold setValue
  rw [bindingForOperation_permitted hnode (·.setValue) h hat.bound]
  refine Limited.attempt (.ok binding) fun p hp => ?_
  cases hp
  refine Limited.attempt (checkScalar_limited hat hv) fun _ _ => ?_
  obtain ⟨engine, hengine⟩ := Engine.Form.setValue_succeeds hat.location_eq hat.state_eq
    (hat.writable hs hoffer.1) (hat.accepts hv).2
  exact applyScalarEdit_limited ⟨engine, (), hengine⟩

theorem setNull_limited (hinv : form.Inv) (hnode : form.node identity = some node)
    (h : node.allowedOperations.setNull = true) : Limited (form.setNull identity).2 := by
  have harray : node.arrayOperations.setNull = false := by
    unfold NodeView.arrayOperations
    split <;> rfl
  obtain ⟨hk, state, hs, hoffer⟩ := scalar_of_allowed (·.setNull) rfl harray rfl h
  obtain ⟨binding, c, location, hat⟩ := scalarAt hinv hnode hk
  simp only [NodeView.scalarOperations, Bool.and_eq_true] at hoffer
  obtain ⟨⟨hnull, _⟩, hcan⟩ := hoffer
  have hcompatible : controlValueIsCompatible c.definition .null = true := by
    rw [hat.acceptsNull] at hnull
    exact hnull
  unfold setNull
  rw [bindingForOperation_permitted hnode (·.setNull) h hat.bound]
  refine Limited.attempt (.ok binding) fun p hp => ?_
  cases hp
  obtain ⟨engine, hengine⟩ := Engine.Form.setValue_succeeds hat.location_eq hat.state_eq
    (hat.writable hs hcan) hcompatible
  exact applyScalarEdit_limited ⟨engine, (), hengine⟩

/-! ## Structures -/

theorem currentData_eq (hnode : form.node identity = some node) (hb : node.binding = some binding) :
    node.currentData = Pointer.resolve binding form.formData := by
  rw [NodeView.currentData, hb, Option.bind_some, (node_eq_some.mp hnode).2.1]

theorem parentIsObject_eq (hnode : form.node identity = some node)
    (hb : node.binding = some binding) :
    node.parentIsObject = bindingParentIsObject binding form.formData := by
  rw [NodeView.parentIsObject, hb, Option.any_some, (node_eq_some.mp hnode).2.1]

/-- The array an array node shows. -/
structure ArrayAt (form : Form) (node : NodeView) (binding : Pointer) (array : Engine.ArrayState) :
    Prop where
  bound : node.binding = some binding
  form_eq : node.form = form
  definitionBinding : node.definition.binding = some binding
  array_eq : form.engine.array binding = some array
  choiceOptions : node.definition.choiceOptions = array.definition.choices
  multipleChoice : node.definition.multipleChoice = array.definition.isMultipleChoice

theorem arrayAt (hinv : form.Inv) (hnode : form.node identity = some node)
    (hk : node.definition.semanticKind = some .homogeneousArray) :
    ∃ binding array, form.ArrayAt node binding array := by
  obtain ⟨binding, hb⟩ := bound_of_semanticKind hnode (by rw [hk]; exact Option.some_ne_none _)
  obtain ⟨g, hinst, hshows⟩ := node_shows hinv.shaped hnode hb
  rw [hinst.semanticKind] at hk
  cases hshows with
  | object o _ _ hg _ =>
    subst hg
    cases hk
  | itemObject a i state item o _ _ _ _ _ hg _ =>
    subst hg
    cases hk
  | control c location _ hg =>
    subst hg
    unfold generatedControl controlSemanticKind at hk
    cases hkind : c.definition.kind <;> rw [hkind] at hk <;> cases hk
  | unsupported u _ _ hg _ =>
    subst hg
    cases hk
  | array a ha _ hg hat =>
    subst hg hat
    exact ⟨_, a, hb, (node_eq_some.mp hnode).2.1, hinst.binding,
      hinv.shaped.array_eq form.engine_wf ha, hinst.choiceOptions, hinst.multipleChoice⟩

/-- What an offer to remove a value has checked. -/
theorem offered_removal (hinv : form.Inv) (hnode : form.node identity = some node)
    (h : node.allowedOperations.removeValue = true) : node.isReadOnly = false ∧
      node.definition.semanticKind ≠ none ∧ node.definition.required = false ∧
      node.currentData.isSome = true := by
  refine ⟨@isReadOnly_of_allowed node (·.removeValue) rfl h,
    @semanticKind_of_allowed node (·.removeValue) rfl h, ?_⟩
  rcases allowed_cases (·.removeValue) rfl h with
    ⟨_, hoffer⟩ | ⟨_, hoffer⟩ | ⟨hk, state, hs, hoffer⟩
  · unfold NodeView.arrayOperations at hoffer
    cases hb : node.definition.binding with
    | none =>
      rw [hb] at hoffer
      cases hoffer
    | some binding =>
      rw [hb] at hoffer
      simp only [Bool.and_eq_true, Bool.not_eq_true'] at hoffer
      exact ⟨hoffer.2, hoffer.1⟩
  · simp only [NodeView.objectOperations, Bool.and_eq_true, Bool.not_eq_true'] at hoffer
    exact ⟨hoffer.2, hoffer.1⟩
  · simp only [NodeView.scalarOperations, Bool.and_eq_true, Bool.not_eq_true', bne_iff_ne] at hoffer
    obtain ⟨binding, c, location, hat⟩ := scalarAt hinv hnode hk
    have hspec := hat.valueState hs
    refine ⟨hoffer.1, ?_⟩
    rw [hat.currentData]
    cases hv : Pointer.resolve binding form.formData with
    | some value => rfl
    | none =>
      rw [hv] at hspec
      exact absurd hspec hoffer.2

/-- Nothing else is checked. -/
theorem offers_removal (hinv : form.Inv) (hnode : form.node identity = some node)
    (hro : node.isReadOnly = false) (hk : node.definition.semanticKind ≠ none)
    (hrequired : node.definition.required = false) (hcurrent : node.currentData.isSome = true) :
    node.allowedOperations.removeValue = true := by
  unfold NodeView.allowedOperations
  rw [hro, if_neg Bool.false_ne_true]
  split
  · rename_i harray
    obtain ⟨binding, array, hat⟩ := arrayAt hinv hnode harray
    simp [NodeView.arrayOperations, hat.definitionBinding, hcurrent, hrequired]
  split
  · simp [NodeView.objectOperations, hcurrent, hrequired]
  rename_i harray hobject
  have hscalar : node.definition.semanticKind.any SemanticKind.isScalar = true := by
    cases hs : node.definition.semanticKind with
    | none => exact absurd hs hk
    | some kind =>
      rw [hs] at harray hobject
      cases kind <;> first | rfl | exact absurd rfl harray | exact absurd rfl hobject
  cases hs : node.valueState with
  | none =>
    unfold NodeView.valueState at hs
    rw [hscalar] at hs
    obtain ⟨value, hv⟩ := Option.isSome_iff_exists.mp hcurrent
    rw [hv] at hs
    simp only [Bool.not_true, Bool.false_eq_true, if_false] at hs
    split at hs
    · cases hs
    · split at hs <;> cases hs
  | some state =>
    obtain ⟨binding, c, location, hat⟩ := scalarAt hinv hnode hscalar
    have hspec := hat.valueState hs
    rw [hat.currentData] at hcurrent
    obtain ⟨value, hv⟩ := Option.isSome_iff_exists.mp hcurrent
    rw [hv] at hspec
    simp [NodeView.scalarOperations, hrequired, hspec.1]

theorem removeValue_limited (hinv : form.Inv) (hnode : form.node identity = some node)
    (h : node.allowedOperations.removeValue = true) (hmember : ¬ node.MemberRemoval) :
    Limited (form.removeValue identity).2 := by
  obtain ⟨hro, hk, hrequired, hcurrent⟩ := offered_removal hinv hnode h
  obtain ⟨binding, hb⟩ := bound_of_semanticKind hnode hk
  have hparent : node.parentIsObject = true := by
    cases hp : node.parentIsObject with
    | true => rfl
    | false => exact absurd ⟨hro, hk, hrequired, hcurrent, hp⟩ hmember
  rw [currentData_eq hnode hb] at hcurrent
  rw [parentIsObject_eq hnode hb] at hparent
  obtain ⟨engine, hengine⟩ := Engine.Form.removeValue_iff.mpr ⟨hcurrent, hparent⟩
  unfold removeValue
  rw [bindingForOperation_permitted hnode (·.removeValue) h hb]
  refine Limited.attempt (.ok binding) fun p hp => ?_
  cases hp
  split
  · exact applyStructuralEdit_limited ⟨engine, (), hengine⟩
  · exact applyScalarEdit_limited ⟨engine, (), hengine⟩

/-- The engine removes members of objects only. -/
theorem removeValue_refused (hinv : form.Inv) (hnode : form.node identity = some node)
    (hmember : node.MemberRemoval) :
    (form.removeValue identity).2 = .error .operationNotAllowed := by
  obtain ⟨hro, hk, hrequired, hcurrent, hparent⟩ := hmember
  have hoffer := offers_removal hinv hnode hro hk hrequired hcurrent
  obtain ⟨binding, hb⟩ := bound_of_semanticKind hnode hk
  rw [parentIsObject_eq hnode hb] at hparent
  have hcandidate : form.candidateEngine binding Engine.Form.removeValue =
      .error .operationNotAllowed := by
    unfold candidateEngine
    rw [Engine.Form.removeValue_error hparent]
    rfl
  unfold removeValue
  rw [bindingForOperation_permitted hnode (·.removeValue) hoffer hb]
  dsimp only [attempt]
  split
  · rw [applyStructuralEdit, hcandidate]
    rfl
  · rw [applyScalarEdit, hcandidate]
    rfl

theorem semanticKind_eq (hnode : form.node identity = some node) :
    form.semanticKind identity = node.definition.semanticKind := by
  rw [semanticKind, hnode, Option.bind_some]

/-- A structure of another kind is replaced, and a multiple choice that holds other members. -/
theorem replaceable_of_offer (hinv : form.Inv) (hnode : form.node identity = some node)
    {value : Value} (h : node.allowedOperations.replaceValue = true)
    (hk : node.definition.semanticKind.any SemanticKind.isStructure = true)
    (hv : node.Documented (.replaceValue identity value)) : ∃ binding current,
      node.binding = some binding ∧ Pointer.resolve binding form.engine.formData = some current ∧
      Engine.Form.replaceable (form.engine.isMultipleChoiceAt binding) value current = true ∧
      form.checkStructure (form.semanticKind identity) binding value =
        form.checkInputAt value binding := by
  rcases allowed_cases (·.replaceValue) rfl h with
    ⟨harray, hoffer⟩ | ⟨hobject, hoffer⟩ | ⟨hscalar, _⟩
  · obtain ⟨binding, array, hat⟩ := arrayAt hinv hnode harray
    unfold NodeView.Documented at hv
    rw [harray] at hv
    unfold NodeView.arrayOperations at hoffer
    rw [hat.definitionBinding] at hoffer
    obtain ⟨current, hcurrent, hoffer⟩ := (Option.any_eq_true _ _).mp hoffer
    rw [currentData_eq hnode hat.bound] at hcurrent
    refine ⟨binding, current, hat.bound, hcurrent, ?_, ?_⟩
    · have hv' : value.isArray = true := hv
      have hmultiple : node.definition.multipleChoice = true →
          form.engine.isMultipleChoiceAt binding = true := by
        intro hm
        rw [hat.multipleChoice] at hm
        obtain ⟨hmem, hb⟩ := Engine.Form.array_mem hat.array_eq
        exact List.any_eq_true.mpr ⟨array, hmem, by simp [hb, hm]⟩
      simp only [Bool.or_eq_true, Bool.and_eq_true] at hoffer
      simp only [Engine.Form.replaceable, Bool.or_eq_true, Bool.and_eq_true]
      exact .inr ⟨hv', hoffer.imp_right fun h => hmultiple h.1⟩
    · have hv' : value.isArray = true := hv
      rw [semanticKind_eq hnode, harray, checkStructure, hv']
      rfl
  · obtain ⟨binding, hb⟩ := bound_of_semanticKind hnode (by rw [hobject]; exact Option.some_ne_none _)
    unfold NodeView.Documented at hv
    rw [hobject] at hv
    have hv' : value.isObject = true := hv
    obtain ⟨current, hcurrent, hoffer⟩ := (Option.any_eq_true _ _).mp hoffer
    rw [currentData_eq hnode hb] at hcurrent
    refine ⟨binding, current, hb, hcurrent, ?_, ?_⟩
    · rw [Engine.Form.replaceable, hv', hoffer]
      rfl
    · rw [semanticKind_eq hnode, hobject, checkStructure, hv']
      rfl
  · have hnot := not_structure hnode hscalar
    rw [semanticKind_eq hnode, hk] at hnot
    cases hnot

theorem replaceValue_limited (hinv : form.Inv) (hnode : form.node identity = some node)
    {value : Value} (h : node.allowedOperations.replaceValue = true)
    (hv : node.Documented (.replaceValue identity value)) :
    Limited (form.replaceValue identity value).2 := by
  unfold replaceValue
  by_cases hk : node.definition.semanticKind.any SemanticKind.isStructure = true
  · obtain ⟨binding, current, hb, hcurrent, hreplace, hcheck⟩ :=
      replaceable_of_offer hinv hnode h hk hv
    obtain ⟨engine, hengine⟩ := Engine.Form.replaceStructure_succeeds hcurrent hreplace
    rw [bindingForOperation_permitted hnode (·.replaceValue) h hb]
    refine Limited.attempt (.ok binding) fun p hp => ?_
    cases hp
    dsimp only
    rw [semanticKind_eq hnode, if_pos hk, ← semanticKind_eq hnode, hcheck]
    exact Limited.attempt (checkInputAt_limited value binding) fun _ _ =>
      applyStructuralEdit_limited ⟨engine, (), hengine⟩
  · rcases allowed_cases (·.replaceValue) rfl h with
      ⟨hkind, _⟩ | ⟨hkind, _⟩ | ⟨hscalar, state, hs, hoffer⟩
    · rw [hkind] at hk
      exact absurd rfl hk
    · rw [hkind] at hk
      exact absurd rfl hk
    obtain ⟨binding, c, location, hat⟩ := scalarAt hinv hnode hscalar
    have haccepts : node.Accepts value := by
      unfold NodeView.Documented at hv
      rw [hat.semanticKind] at hv
      unfold controlSemanticKind at hv
      cases hkind : c.definition.kind <;> rw [hkind] at hv <;> exact hv
    have hmissing : state ≠ .missing := by
      rintro rfl
      simp [NodeView.scalarOperations] at hoffer
    have hw := hat.writable hs (by simp [hmissing])
    rw [bindingForOperation_permitted hnode (·.replaceValue) h hat.bound]
    refine Limited.attempt (.ok binding) fun p hp => ?_
    cases hp
    dsimp only
    rw [semanticKind_eq hnode, if_neg hk]
    refine Limited.attempt (checkScalar_limited hat haccepts) fun _ _ => ?_
    obtain ⟨engine, hengine⟩ := Engine.Form.setValue_succeeds hat.location_eq hat.state_eq hw
      (hat.accepts haccepts).2
    exact applyScalarEdit_limited ⟨engine, (), hengine⟩

/-- A structure is seeded with a structure. -/
theorem creationSeed_structure (hinv : form.Inv) (hnode : form.node identity = some node)
    (hk : node.definition.semanticKind.any SemanticKind.isStructure = true) :
    ∃ seed, form.creationSeed identity = .ok seed ∧
      (seed.isObject = true ∨ seed.isArray = true) := by
  have hd := form.engine_wf
  obtain ⟨_, _, _, hdef, _⟩ := node_eq_some.mp hnode
  obtain ⟨binding, hb⟩ := bound_of_semanticKind hnode (by
    intro hnone
    rw [hnone] at hk
    cases hk)
  obtain ⟨g, hinst, hshows⟩ := node_shows hinv.shaped hnode hb
  have hseed (seed : Value) (hg : g.creationSeed = some seed) :
      form.creationSeed identity = .ok seed := by
    unfold creationSeed
    rw [form.inner_wf.node_eq, hdef, Option.bind_some, hinst.creationSeed, hg]
  rw [hinst.semanticKind] at hk
  cases hshows with
  | object o ho _ hg _ =>
    subst hg
    exact ⟨_, hseed _ rfl, .inl (hd.object_seed_isObject o ho)⟩
  | itemObject a i state item o ha _ ho _ _ hg _ =>
    subst hg
    have htemplate := hd.template_wf _ (hinv.shaped.array_mem ha)
    exact ⟨_, hseed _ rfl, .inl (htemplate.object_seed_isObject o ho)⟩
  | array a ha _ hg _ =>
    subst hg
    exact ⟨_, hseed _ rfl, .inr (hd.array_seed_isArray _ (hinv.shaped.array_mem ha))⟩
  | control c _ _ hg =>
    subst hg
    simp only [generatedControl, controlSemanticKind] at hk
    cases hkind : c.definition.kind <;> rw [hkind] at hk <;> cases hk
  | unsupported u _ _ hg _ =>
    subst hg
    cases hk

theorem materialize_limited (hinv : form.Inv) (hnode : form.node identity = some node)
    (h : node.allowedOperations.materialize = true) : Limited (form.materialize identity).2 := by
  obtain ⟨seed, hseed, hshape⟩ := creationSeed_structure hinv hnode (materialize_structure h)
  obtain ⟨binding, hb⟩ :=
    bound_of_semanticKind hnode (@semanticKind_of_allowed node (·.materialize) rfl h)
  have hoffer : node.currentData = none ∧ node.parentIsObject = true := by
    have hscalar (state : ScalarValueState) : (node.scalarOperations state).materialize = false := rfl
    rcases structure_of_allowed rfl hscalar h with ⟨harray, hoffer⟩ | ⟨_, hoffer⟩
    · obtain ⟨p, array, hat⟩ := arrayAt hinv hnode harray
      unfold NodeView.arrayOperations at hoffer
      rw [hat.definitionBinding] at hoffer
      simpa using hoffer
    · simpa [NodeView.objectOperations] using hoffer
  rw [currentData_eq hnode hb, parentIsObject_eq hnode hb] at hoffer
  obtain ⟨engine, hengine⟩ :=
    Engine.Form.materializeStructure_succeeds hoffer.1 hoffer.2 hshape
  unfold materialize
  rw [bindingForOperation_permitted hnode (·.materialize) h hb]
  refine Limited.attempt (.ok binding) fun p hp => ?_
  cases hp
  rw [hseed]
  refine Limited.attempt (.ok seed) fun p hp => ?_
  cases hp
  exact applyStructuralEdit_limited ⟨engine, (), hengine⟩

/-! ## Array items -/

/-- What every operation on the items of an array begins with. -/
structure ItemsOffer (form : Form) (identity : InstanceIdentity) (node : NodeView)
    (allowed : AllowedOperations → Bool) (binding : Pointer) (array : Engine.ArrayState)
    (template : Nat) : Prop where
  at_ : form.ArrayAt node binding array
  permitted : form.bindingForOperation identity allowed = .ok binding
  template_eq : form.templateOf identity = .ok template
  offer : allowed node.arrayOperations = true
  child : ∃ d, form.definition.inner.nodes[template]? = some d ∧ d.owningArray = some identity.node
  items : ∀ ids, form.engine.arrayItemIdentities binding = some ids →
    form.itemsOf identity.node = ids

theorem itemsOffer (hinv : form.Inv) (hnode : form.node identity = some node)
    (allowed : AllowedOperations → Bool) (hnone : allowed {} = false)
    (hscalar : ∀ state, allowed (node.scalarOperations state) = false)
    (hobject : allowed node.objectOperations = false)
    (h : allowed node.allowedOperations = true) :
    ∃ binding array template, form.ItemsOffer identity node allowed binding array template := by
  rcases structure_of_allowed hnone hscalar h with ⟨hk, hoffer⟩ | ⟨_, hoffer⟩
  · obtain ⟨binding, array, hat⟩ := arrayAt hinv hnode hk
    obtain ⟨_, _, _, hd, _⟩ := node_eq_some.mp hnode
    obtain ⟨template, child, ht, _, hchild, howner⟩ := form.inner_wf.arrayTemplate_eq hd hk
    refine ⟨binding, array, template, hat, bindingForOperation_permitted hnode allowed h hat.bound,
      ?_,
      hoffer, ⟨child, hchild, howner⟩, fun ids hids => ?_⟩
    · rw [templateOf, ht]
    · rw [itemsOf, hd, Option.bind_some, hat.definitionBinding, Option.bind_some, hids,
        Option.getD_some]
  · rw [hobject] at hoffer
    cases hoffer

/-- The item a documented call names, in the array of the offer. -/
theorem ArrayAt.item {array : Engine.ArrayState} (hat : form.ArrayAt node binding array)
    {item : ItemIdentity} {index length : Nat} (h : node.HoldsItem item index length) :
    item.form = form.id ∧ ∃ ids, form.engine.arrayItemIdentities binding = some ids ∧
      ids.length = length ∧ ids.findIdx? (· == item.localId) = some index ∧
      item.localId ∈ ids := by
  obtain ⟨hform, p, ids, hp, hids, hlength, hindex⟩ := h
  obtain rfl := Option.some.inj (hat.bound.symm.trans hp)
  rw [hat.form_eq] at hform hids
  obtain ⟨id, hid, heq⟩ := Engine.Form.findIdx?_some hindex
  refine ⟨hform, ids, hids, hlength, hindex, ?_⟩
  rw [← eq_of_beq heq]
  exact List.mem_of_getElem? hid

theorem appendItem_limited (hinv : form.Inv) (hnode : form.node identity = some node)
    (h : node.allowedOperations.appendItem = true) : Limited (form.appendItem identity).2 := by
  obtain ⟨binding, array, template, ho⟩ :=
    itemsOffer hinv hnode (·.appendItem) rfl (fun _ => rfl) rfl h
  have hgate : form.engine.arrayCanAppend binding = true := by
    have hoffer := ho.offer
    unfold NodeView.arrayOperations at hoffer
    rwa [ho.at_.definitionBinding, ho.at_.form_eq] at hoffer
  unfold appendItem
  rw [ho.permitted]
  refine Limited.attempt (.ok binding) fun p hp => ?_
  cases hp
  rw [ho.template_eq]
  refine Limited.attempt (.ok template) fun p hp => ?_
  cases hp
  exact Limited.attempt (candidateEngine_limited (Engine.Form.appendArrayItem_succeeds hgate))
    fun _ _ => .ok _

theorem insertItemBefore_limited (hinv : form.Inv) (hnode : form.node identity = some node)
    (h : node.allowedOperations.appendItem = true) {item : ItemIdentity} {index length : Nat}
    (hitem : node.HoldsItem item index length) :
    Limited (form.insertItemBefore identity item).2 := by
  obtain ⟨binding, array, template, ho⟩ :=
    itemsOffer hinv hnode (·.appendItem) rfl (fun _ => rfl) rfl h
  have hgate : form.engine.arrayCanAppend binding = true := by
    have hoffer := ho.offer
    unfold NodeView.arrayOperations at hoffer
    rwa [ho.at_.definitionBinding, ho.at_.form_eq] at hoffer
  obtain ⟨hform, ids, hids, _, _, hmem⟩ := ho.at_.item hitem
  unfold insertItemBefore
  rw [checkItem_ok hform]
  refine Limited.attempt (.ok ()) fun _ _ => ?_
  rw [ho.permitted]
  refine Limited.attempt (.ok binding) fun p hp => ?_
  cases hp
  rw [ho.template_eq]
  refine Limited.attempt (.ok template) fun p hp => ?_
  cases hp
  exact Limited.attempt (candidateEngine_limited
    (Engine.Form.insertArrayItemBefore_succeeds hgate hids hmem)) fun _ _ => .ok _

theorem removeItem_limited (hinv : form.Inv) (hnode : form.node identity = some node)
    (h : node.allowedOperations.removeItem = true) {item : ItemIdentity} {index length : Nat}
    (hitem : node.HoldsItem item index length) : Limited (form.removeItem identity item).2 := by
  obtain ⟨binding, array, template, ho⟩ :=
    itemsOffer hinv hnode (·.removeItem) rfl (fun _ => rfl) rfl h
  have hgate : form.engine.arrayCanRemove binding = true := by
    have hoffer := ho.offer
    unfold NodeView.arrayOperations at hoffer
    rwa [ho.at_.definitionBinding, ho.at_.form_eq] at hoffer
  obtain ⟨hform, ids, hids, _, _, hmem⟩ := ho.at_.item hitem
  obtain ⟨d, hd, howner⟩ := ho.child
  have hshown : (form.node (form.itemIdentity template item)).isSome = true := by
    refine resolves_iff.mpr ⟨rfl, d, hd, hform, identity.node, howner, ?_⟩
    rw [ho.items ids hids]
    exact hmem
  unfold removeItem
  rw [checkItem_ok hform]
  refine Limited.attempt (.ok ()) fun _ _ => ?_
  rw [ho.permitted]
  refine Limited.attempt (.ok binding) fun p hp => ?_
  cases hp
  rw [ho.template_eq]
  refine Limited.attempt (.ok template) fun p hp => ?_
  cases hp
  obtain ⟨engine, removed, hengine⟩ := Engine.Form.removeArrayItem_succeeds hgate hids hmem
  dsimp only
  rw [Option.isNone_eq_false_iff.mpr hshown, if_neg Bool.false_ne_true]
  simp only [hengine]
  exact .ok _

theorem moveItem_limited (hinv : form.Inv) (hnode : form.node identity = some node)
    (h : node.allowedOperations.moveItem = true) {direction : Engine.ArrayMove}
    {item : ItemIdentity} (hv : node.Documented (.moveItem direction identity item)) :
    Limited (form.moveItem direction identity item).2 := by
  obtain ⟨binding, array, template, ho⟩ :=
    itemsOffer hinv hnode (·.moveItem) rfl (fun _ => rfl) rfl h
  have hgate : form.engine.arrayCanMove binding = true := by
    have hoffer := ho.offer
    unfold NodeView.arrayOperations at hoffer
    rwa [ho.at_.definitionBinding, ho.at_.form_eq] at hoffer
  obtain ⟨index, length, hitem, hdestination⟩ : ∃ index length, node.HoldsItem item index length ∧
      (Engine.Form.moveDestination direction index length).isSome = true := by
    cases direction with
    | up =>
      obtain ⟨index, length, hitem, hfirst⟩ := hv
      exact ⟨index, length, hitem, by rw [Engine.Form.moveDestination, if_neg hfirst]; rfl⟩
    | down =>
      obtain ⟨index, length, hitem, hlast⟩ := hv
      exact ⟨index, length, hitem, by rw [Engine.Form.moveDestination, if_pos hlast]; rfl⟩
  obtain ⟨hform, ids, hids, rfl, hindex, _⟩ := ho.at_.item hitem
  unfold moveItem
  rw [checkItem_ok hform]
  refine Limited.attempt (.ok ()) fun _ _ => ?_
  rw [ho.permitted]
  refine Limited.attempt (.ok binding) fun p hp => ?_
  cases hp
  rw [ho.template_eq]
  refine Limited.attempt (.ok template) fun p hp => ?_
  cases hp
  obtain ⟨engine, moved, hengine⟩ :=
    Engine.Form.moveArrayItem_succeeds hgate hids hindex hdestination
  simp only [hengine]
  exact .ok _

theorem toggleChoice_limited (hinv : form.Inv) (hnode : form.node identity = some node)
    (h : node.allowedOperations.toggleChoice = true) {value : Value}
    (hv : node.Documented (.toggleChoice identity value)) :
    Limited (form.toggleChoice identity value).2 := by
  obtain ⟨binding, array, template, ho⟩ :=
    itemsOffer hinv hnode (·.toggleChoice) rfl (fun _ => rfl) rfl h
  have hgate : form.engine.arrayCanToggleChoice binding = true := by
    have hoffer := ho.offer
    unfold NodeView.arrayOperations at hoffer
    rwa [ho.at_.definitionBinding, ho.at_.form_eq] at hoffer
  obtain ⟨option, hoption, heq⟩ := hv
  rw [ho.at_.choiceOptions] at hoption
  unfold toggleChoice
  rw [ho.permitted]
  refine Limited.attempt (.ok binding) fun p hp => ?_
  cases hp
  rw [ho.template_eq]
  refine Limited.attempt (.ok template) fun p hp => ?_
  cases hp
  refine Limited.attempt (checkInputAt_limited value binding) fun _ _ => ?_
  exact Limited.attempt (candidateEngine_limited (Engine.Form.toggleArrayChoice_succeeds hgate
    ho.at_.array_eq ⟨option, hoption, heq⟩)) fun _ _ => .ok _

/-! ## Agreement -/

theorem offered (hinv : form.Inv) (hnode : form.node identity = some node)
    (hmember : ¬ node.MemberRemoval) {operation : Operation}
    {allowed : AllowedOperations → Bool} (htarget : operation.target = some identity)
    (hpermission : operation.permission = some allowed)
    (h : allowed node.allowedOperations = true) (hv : node.Documented operation) :
    Served (form.step operation).2 := by
  cases operation <;> cases hpermission <;> cases htarget
  case inputText text => exact (inputText_limited hinv hnode h text).served
  case setValue value => exact (setValue_limited hinv hnode h hv).served
  case setNull => exact (setNull_limited hinv hnode h).served
  case removeValue => exact (removeValue_limited hinv hnode h hmember).served
  case replaceValue value => exact (replaceValue_limited hinv hnode h hv).served
  case materialize => exact (materialize_limited hinv hnode h).served
  case appendItem => exact (appendItem_limited hinv hnode h).served
  case insertItemBefore item =>
    obtain ⟨index, length, hitem⟩ := hv
    exact (insertItemBefore_limited hinv hnode h hitem).served
  case removeItem item =>
    obtain ⟨index, length, hitem⟩ := hv
    exact (removeItem_limited hinv hnode h hitem).served
  case moveItem direction item => exact (moveItem_limited hinv hnode h hv).served
  case toggleChoice value => exact (toggleChoice_limited hinv hnode h hv).served

theorem disagrees (hinv : form.Inv) (hnode : form.node identity = some node)
    (hmember : node.MemberRemoval) : ¬ form.Agrees identity node := by
  intro h
  have hoffer := offers_removal hinv hnode hmember.1 hmember.2.1 hmember.2.2.1 hmember.2.2.2.1
  have hstep : (form.step (.removeValue identity)).2 = .error (.user .operationNotAllowed) := by
    show (form.removeValue identity).2.mapError OperationError.user = _
    rw [removeValue_refused hinv hnode hmember]
    rfl
  rcases h.served (.removeValue identity) (·.removeValue) rfl rfl hoffer trivial with
    ⟨t, ht⟩ | ⟨error, he⟩
  · rw [hstep] at ht
    cases ht
  · rw [hstep] at he
    cases he

/-- Offers are honoured, and only they are, save for the removal of an array's member. -/
theorem allowed_operations_agree (h : formSystem.Reachable form)
    (hnode : form.node identity = some node) :
    form.Agrees identity node ↔ ¬ node.MemberRemoval := by
  have hinv := reachable_inv h
  constructor
  · intro hagrees hmember
    exact disagrees hinv hnode hmember hagrees
  · intro hmember
    exact ⟨fun _ _ => offered hinv hnode hmember, fun _ _ htarget hpermission hflag hown =>
      congrArg Prod.snd (not_offered hnode htarget hpermission hflag hown)⟩

end Form

/-! ## An object with a property named like an index -/

namespace Sample

def member : Engine.ControlDefinition where
  binding := ["o", "0"]
  parentBinding := some ["o"]
  kind := .string
  choices := []
  acceptsNull := false
  annotations := {}
  creationSeed := some (.string "")
  required := false

def holder : Engine.ObjectDefinition where
  binding := ["o"]
  parentBinding := none
  annotations := {}
  required := false
  creationSeed := .object []

def holding : FormDefinition where
  inner := {
    engine := ⟨[member], [holder], [], [], {}⟩
    validator := ⟨fun _ => []⟩
    parser := Engine.Sample.parser
    nodes := [.root {} [1], .showing 1 none (generatedObject none holder) [2],
      .showing 2 none (generatedControl none member) []]
    annotationScopes := annotationScopesOf ⟨[member], [holder], [], [], {}⟩
    capabilityFindings := [] }
  wellFormed :=
    DefinitionInner.wellFormed_of_checked (by decide) (by decide) (by decide) (by decide) rfl

/-- The form built on data that has an array in the object's place. -/
def held : Form where
  definition := holding
  engine := {
    controls := [.new member]
    arrays := []
    nextItemIdentity := 1
    baselineArrayIdentities := []
    baseline := .object [("o", .array [.string "x"])]
    formData := .object [("o", .array [.string "x"])]
    externalFindingBatches := []
    submissionAttempted := false
    dataRevision := 0
    stateRevision := 0 }
  validation := .valid
  externalFindingBatches := []
  externalFindingLimits := {}
  limits := {}
  findingVisibility := {}
  readOnly := false
  id := 0

theorem held_reachable : formSystem.Reachable held :=
  .init ⟨{ definition := holding, formData := .object [("o", .array [.string "x"])] }, 0,
    by decide, rfl⟩

/-- The control of the property, showing the first item of the array. -/
def heldNode : NodeView := ⟨held, held.identity 2, .showing 2 none (generatedControl none member) []⟩

end Sample

theorem Form.removal_offered_in_vain : formSystem.Reachable Sample.held ∧
    Sample.held.node (Sample.held.identity 2) = some Sample.heldNode ∧
    Sample.heldNode.allowedOperations.removeValue = true ∧
    (Sample.held.step (.removeValue (Sample.held.identity 2))).2 =
      .error (.user .operationNotAllowed) ∧
    ¬ Sample.held.Agrees (Sample.held.identity 2) Sample.heldNode := by
  have hstep : (Sample.held.step (.removeValue (Sample.held.identity 2))).2 =
      .error (.user .operationNotAllowed) := rfl
  refine ⟨Sample.held_reachable, rfl, rfl, hstep, fun h => ?_⟩
  rcases h.served (.removeValue (Sample.held.identity 2)) (·.removeValue) rfl rfl rfl trivial with
    ⟨t, ht⟩ | ⟨error, he⟩
  · rw [hstep] at ht
    cases ht
  · rw [hstep] at he
    cases he

theorem Form.allowed_operations_agree_member :
    Sample.held.Agrees (Sample.held.identity 2) Sample.heldNode ↔
      ¬ Sample.heldNode.MemberRemoval :=
  allowed_operations_agree Sample.held_reachable rfl

end Schemaform
