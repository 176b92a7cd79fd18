import Schemaform.Form.Reachable

/-!
# Form.Revisions

The two revisions against the data and the state they count.

* `state_revision_sound`: the state revision stands still only over an unchanged form.
* `step_data`: all operations but two count data changes exactly.
* `data_revision_exact`: `replace_value` does unless it repeats an array.
-/

namespace Schemaform

def Operation.startsAfresh : Operation → Bool
  | Operation.reinitialize _ => true
  | _ => false

namespace Form

variable {form form' : Form} {engine : Engine.Form}

/-! ## The state revision -/

/-- A reader may skip a form whose state revision it has seen. -/
theorem state_revision_sound (h : formSystem.Reachable form) (operation : WellFormedOperation)
    (hstep : (form.step operation.1).1 = form') :
    form.stateRevision.revision ≤ form'.stateRevision.revision ∧
    form'.stateRevision.revision ≤ form.stateRevision.revision + 1 ∧
    (form.dataRevision.revision < form'.dataRevision.revision →
      form.stateRevision.revision < form'.stateRevision.revision) ∧
    (form'.stateRevision = form.stateRevision →
      (∀ identity, (form'.node identity).isSome = (form.node identity).isSome) ∧
      form'.instanceIdentities = form.instanceIdentities ∧
      (∀ identity, form'.childrenOf identity = form.childrenOf identity) ∧
      (∀ identity, form'.nodeObservation identity = form.nodeObservation identity) ∧
      form'.engine.submissionAttempted = form.engine.submissionAttempted) := by
  have heffect := reachable_effect h operation
  rw [hstep] at heffect
  have hnext : form'.engine.stateRevision = form.engine.stateRevision ∨
      form'.engine.stateRevision = form.engine.stateRevision + 1 :=
    heffect.engine.state.imp_left (congrArg Engine.Form.stateRevision)
  simp only [stateRevision, dataRevision]
  refine ⟨by omega, by omega, fun hdata => ?_, fun hsame => ?_⟩
  · rcases heffect.engine.state with he | he
    · rw [he] at hdata
      exact absurd hdata (Nat.lt_irrefl _)
    · omega
  · have hrevision : form'.engine.stateRevision = form.engine.stateRevision :=
      congrArg StateRevision.revision hsame
    obtain rfl := heffect.unchanged (reachable_ordered h) hrevision
    exact ⟨fun _ => rfl, rfl, fun _ => rfl, fun _ => rfl, rfl⟩

/-- A touched control is left again. -/
theorem state_revision_sound_blurred :
    (∃ t, (Sample.edited.step (.blur ⟨0, 2, some ⟨0, 1⟩⟩)).2 = .ok t) ∧
    ∀ identity, (Sample.edited.step (.blur ⟨0, 2, some ⟨0, 1⟩⟩)).1.nodeObservation identity =
      Sample.edited.nodeObservation identity :=
  ⟨⟨_, rfl⟩, ((state_revision_sound Sample.edited_reachable
    ⟨.blur ⟨0, 2, some ⟨0, 1⟩⟩, trivial⟩ rfl).2.2.2 (by decide)).2.2.2.1⟩

/-! ## The data revision -/

theorem settle_data (h : form.engine.DataExact engine) :
    form.engine.DataExact ({ form with engine }.settle form.revisions).engine := by
  rwa [settle_engine]

theorem dataExact_of_refused {α ε : Type} {r : Except ε α} (h : Refused form form' r) :
    form.engine.DataExact form'.engine := by
  rw [h.1]
  exact .refl _

theorem hostCommitted_data (hinv : form.Inv) {operations : List HostOperation}
    (hwf : ∀ o ∈ operations, o.WF) {candidate : Value}
    (hc : form.hostCandidate (form.queued operations) = .ok candidate)
    (he : form.engine.applyHostTransaction candidate (form.queued operations).writes
      ((form.queued operations).arrayTopologies.map hostArrayChange)
      (form.queued operations).itemWrites = (engine, .ok ())) :
    form.engine.DataExact
      (form.hostCommitted (form.queued operations) candidate engine).engine := by
  rw [hostCommitted_engine]
  exact Engine.Form.applyHostTransaction_data hinv (queued_candidate hinv hwf hc).2.2 he

theorem items_data {directlyChanged removed : List InstanceIdentity}
    {r : Except UserOperationError Transition}
    (h : form.ItemsEdited engine directlyChanged removed form' r)
    (he : form.engine.ItemsEdited form.numbers engine) : form.engine.DataExact form'.engine := by
  obtain ⟨rfl, _⟩ := h
  exact he.data

/-- The data revision advances by one for a reinitialization and for a semantic change of the data,
and stands still otherwise. -/
def CountsExactly (form : Form) (operation : Operation) : Prop :=
  (form.step operation).1.dataRevision.revision = form.dataRevision.revision +
    if operation.startsAfresh && (form.step operation).2.isOk ||
        !jsonValuesEqual form.formData (form.step operation).1.formData then 1 else 0

/-- A structure is replaced by a semantically equal one, and every check lets it through. -/
def RepeatsStructure (form : Form) : Operation → Prop
  | .replaceValue target value => ∃ binding current formData,
      form.bindingForOperation target (·.replaceValue) = .ok binding ∧
      (form.semanticKind target).any SemanticKind.isStructure = true ∧
      form.checkStructure (form.semanticKind target) binding value = .ok () ∧
      binding.resolve form.formData = some current ∧ jsonValuesEqual current value = true ∧
      setBoundValue binding value form.formData = some formData ∧
      form.checkCandidate formData = .ok ()
  | _ => False

theorem countsExactly_iff {operation : Operation} (hr : operation.startsAfresh = false) :
    form.CountsExactly operation ↔ form.engine.DataExact (form.step operation).1.engine := by
  unfold CountsExactly Engine.Form.DataExact
  rw [hr, Bool.false_and, Bool.false_or]
  cases heq : jsonValuesEqual form.engine.formData (form.step operation).1.engine.formData <;>
    simp [formData, dataRevision, heq]

theorem reinitialize_countsExactly (formData : Value) :
    form.CountsExactly (Operation.reinitialize formData) := by
  rcases h : form.reinitialize formData with ⟨form', r⟩
  simp only [CountsExactly, step, outcome, h]
  rcases reinitialize_cases h with ⟨rfl, e, rfl⟩ | ⟨engine, he, rfl, rfl⟩
  · simp [Except.mapError, Except.isOk, Except.toBool, jsonValuesEqual_refl]
  · have hrevision : engine.dataRevision = form.engine.dataRevision + 1 := by
      rcases Engine.Form.reinitialize_cases he with ⟨_, _, hr⟩ | ⟨_, _, rfl⟩
      · cases hr
      · rfl
    simp [Except.mapError, Except.isOk, Except.toBool, Operation.startsAfresh, dataRevision,
      clearExternalFindings, revalidate, hrevision]

/-! ## Replacements -/

theorem checkStructure_eq_ok {kind : Option SemanticKind} {binding : Pointer} {value : Value}
    (h : form.checkStructure kind binding value = .ok ()) :
    (kind = some .fixedObject → value.isObject = true) ∧
    (kind = some .homogeneousArray → value.isArray = true) := by
  unfold checkStructure at h
  split at h
  · cases h
  · rename_i hshape
    simp only [Bool.or_eq_true, Bool.and_eq_true, beq_iff_eq, Bool.not_eq_true', not_or,
      not_and, Bool.not_eq_false] at hshape
    exact hshape

/-- The node of a multiple choice stands at an array that the engine takes for one. -/
theorem isMultipleChoiceAt_of_node (hinv : form.Inv) {target : InstanceIdentity} {node : NodeView}
    (hnode : form.node target = some node) {binding : Pointer} (hb : node.binding = some binding)
    (hmultiple : node.definition.multipleChoice = true) :
    form.engine.isMultipleChoiceAt binding = true := by
  obtain ⟨g, hinst, hshows⟩ := node_shows hinv.shaped hnode hb
  rw [hinst.multipleChoice] at hmultiple
  cases hshows with
  | array a ha _ hg hat =>
    subst hg hat
    have hchoice : a.definition.isMultipleChoice = true := hmultiple
    exact List.any_eq_true.mpr ⟨a, ha, by simp [hchoice]⟩
  | object o _ _ hg _ => rw [hg] at hmultiple; cases hmultiple
  | itemObject _ _ _ _ o _ _ _ _ _ hg _ => rw [hg] at hmultiple; cases hmultiple
  | control c _ _ hg => rw [hg] at hmultiple; cases hmultiple
  | unsupported u _ _ hg _ => rw [hg] at hmultiple; cases hmultiple

/-- Only the array of a multiple choice is replaced by a structure of its own shape. -/
theorem replaceable_of_repeat (hinv : form.Inv) {target : InstanceIdentity}
    {binding : Pointer} {value current : Value}
    (hb : form.bindingForOperation target (·.replaceValue) = .ok binding)
    (hk : (form.semanticKind target).any SemanticKind.isStructure = true)
    (hcheck : form.checkStructure (form.semanticKind target) binding value = .ok ())
    (hcurrent : binding.resolve form.formData = some current)
    (heq : jsonValuesEqual current value = true) :
    value.isArray = true ∧ form.engine.isMultipleChoiceAt binding = true := by
  obtain ⟨node, hnode, hallowed, hbinding⟩ := bindingForOperation_eq_ok.mp hb
  have hkind : form.semanticKind target = node.definition.semanticKind := by
    simp [semanticKind, hnode]
  have hform : node.form = form := (node_eq_some.mp hnode).2.1
  have hdata : node.currentData = some current := by
    rw [NodeView.currentData, hbinding, hform]
    exact hcurrent
  rw [hkind] at hk hcheck
  obtain ⟨hobject, harray⟩ := checkStructure_eq_ok hcheck
  unfold NodeView.allowedOperations at hallowed
  split at hallowed
  · cases hallowed
  split at hallowed
  · rename_i harraykind
    have hvalue := harray harraykind
    unfold NodeView.arrayOperations at hallowed
    split at hallowed
    · cases hallowed
    simp only [hdata, Option.any_some, isArray_congr heq, hvalue, Bool.not_true, Bool.false_or,
      Bool.and_eq_true] at hallowed
    exact ⟨hvalue, isMultipleChoiceAt_of_node hinv hnode hbinding hallowed.1⟩
  split at hallowed
  · rename_i hobjectkind
    simp [NodeView.objectOperations, hdata, isObject_congr heq, hobject hobjectkind] at hallowed
  · rename_i hnotArray hnotObject
    cases hsk : node.definition.semanticKind with
    | none => rw [hsk] at hk; cases hk
    | some kind => cases kind <;> simp_all [SemanticKind.isStructure]

/-- What runs when every check has passed. -/
theorem replaceStructure_of_repeat {binding : Pointer} {value current formData : Value}
    (harray : value.isArray = true) (hmultiple : form.engine.isMultipleChoiceAt binding = true)
    (hcurrent : binding.resolve form.formData = some current)
    (hset : setBoundValue binding value form.formData = some formData) :
    ∃ engine, form.engine.replaceStructure binding value = (engine, .ok ()) ∧
      engine.formData = formData := by
  have hreplaceable : (binding.resolve form.engine.formData).any
      (Engine.Form.replaceable true value) = true := by
    rw [show binding.resolve form.engine.formData = some current from hcurrent]
    simp [Engine.Form.replaceable, harray]
  have hset' : setBoundValue binding value form.engine.formData = some formData := hset
  refine ⟨(({ form.engine with formData }.reconcileAuthoritativeArrays binding).clearEditStateBelow
    binding).dataChanged, ?_, rfl⟩
  unfold Engine.Form.replaceStructure
  dsimp only
  rw [hmultiple, harray, hreplaceable, hset', Bool.or_true]
  rfl

theorem candidateEngine_checked {α : Type} {binding : Pointer} {edit : EngineEdit α} {a : α}
    (h : form.candidateEngine binding edit = .ok (engine, a)) :
    form.checkCandidate engine.formData = .ok () := by
  unfold candidateEngine at h
  split at h
  · cases h
  · obtain ⟨⟨⟩, hc, heq⟩ := bind_eq_ok.mp h
    cases heq
    exact hc

/-- A repeated array is stored, and counted. -/
theorem repeat_counted (hinv : form.Inv) {target : InstanceIdentity} {value : Value}
    (h : form.RepeatsStructure (.replaceValue target value)) :
    (form.replaceValue target value).1.engine.dataRevision = form.engine.dataRevision + 1 ∧
    jsonValuesEqual form.formData (form.replaceValue target value).1.formData = true := by
  obtain ⟨binding, current, formData, hb, hk, hcheck, hcurrent, heq, hset, hcandidate⟩ := h
  obtain ⟨harray, hmultiple⟩ := replaceable_of_repeat hinv hb hk hcheck hcurrent heq
  obtain ⟨engine, he, rfl⟩ := replaceStructure_of_repeat harray hmultiple hcurrent hset
  have hedit : form.candidateEngine binding (fun engine binding =>
      engine.replaceStructure binding value) = .ok (engine, ()) := by
    simp only [candidateEngine, he, hcandidate]
    rfl
  have hrun : (form.replaceValue target value).1 =
      { form with engine }.settle form.revisions := by
    unfold replaceValue
    rw [hb]
    dsimp only [attempt]
    rw [if_pos hk, hcheck]
    dsimp only [attempt, applyStructuralEdit]
    rw [hedit]
  rw [hrun, Form.formData, Form.formData, settle_engine]
  exact ⟨replaceStructure_dataRevision he,
    jsonValuesEqual_setBoundValue hinv.formData_wf hcurrent heq hset⟩

theorem replaceValue_data (hinv : form.Inv) {target : InstanceIdentity} {value : Value}
    (hv : value.WF) (hrepeat : ¬ form.RepeatsStructure (.replaceValue target value))
    {r : Except UserOperationError Transition} (h : form.replaceValue target value = (form', r)) :
    form.engine.DataExact form'.engine := by
  rcases attempt_cases h with hr | ⟨binding, hb, h⟩
  · exact dataExact_of_refused hr
  dsimp only at h
  split at h
  · rename_i hk
    rcases attempt_cases h with hr | ⟨⟨⟩, hcheck, h⟩
    · exact dataExact_of_refused hr
    rcases attempt_cases h with hr | ⟨⟨engine, ⟨⟩⟩, hc, h⟩
    · exact dataExact_of_refused hr
    cases h
    have he := candidateEngine_eq_ok hc
    refine settle_data ((Engine.Form.replaceStructure_data hinv hv he).mpr fun _ => ?_)
    refine Bool.eq_false_iff.mpr fun heq => hrepeat ?_
    obtain ⟨current, hcurrent, heq⟩ := (Option.any_eq_true _ _).mp heq
    rcases Engine.Form.replaceStructure_cases he with ⟨_, _, hr⟩ | ⟨_, _, formData, _, _, hset, rfl⟩
    · cases hr
    · exact ⟨binding, current, formData, hb, hk, hcheck, hcurrent, heq, hset,
        candidateEngine_checked hc⟩
  · rcases attempt_cases h with hr | ⟨_, _, h⟩
    · exact dataExact_of_refused hr
    rcases applyScalarEdit_cases h with hr | ⟨engine, he, rfl, _⟩
    · exact dataExact_of_refused hr
    · exact settle_data (Engine.Form.setValue_data form.engine_wf hinv hv he)

/-! ## Every operation -/

theorem inputText_data (hinv : form.Inv) {target : InstanceIdentity} {text : String}
    {r : Except UserOperationError Transition} (h : form.inputText target text = (form', r)) :
    form.engine.DataExact form'.engine := by
  rcases inputText_cases h with hr | ⟨_, engine, ⟨_, he⟩, rfl, _⟩
  · exact dataExact_of_refused hr
  · exact settle_data (Engine.Form.editText_data hinv he)

theorem blur_data {target : InstanceIdentity} {r : Except UserOperationError Transition}
    (h : form.blur target = (form', r)) : form.engine.DataExact form'.engine := by
  rcases blur_cases h with hr | ⟨_, _, engine, _, _, _, _, he, rfl, _⟩
  · exact dataExact_of_refused hr
  · exact Engine.Form.blur_data he

theorem setValue_data (hinv : form.Inv) {target : InstanceIdentity} {value : Value}
    (hv : value.WF) {r : Except UserOperationError Transition}
    (h : form.setValue target value = (form', r)) : form.engine.DataExact form'.engine := by
  rcases setValue_cases h with hr | ⟨_, engine, ⟨_, he⟩, rfl, _⟩
  · exact dataExact_of_refused hr
  · exact settle_data (Engine.Form.setValue_data form.engine_wf hinv hv he)

theorem setNull_data (hinv : form.Inv) {target : InstanceIdentity}
    {r : Except UserOperationError Transition} (h : form.setNull target = (form', r)) :
    form.engine.DataExact form'.engine := by
  rcases setNull_cases h with hr | ⟨_, engine, ⟨_, he⟩, rfl, _⟩
  · exact dataExact_of_refused hr
  · exact settle_data (Engine.Form.setValue_data form.engine_wf hinv (show Value.WF .null from rfl)
      he)

theorem removeValue_data (hinv : form.Inv) {target : InstanceIdentity}
    {r : Except UserOperationError Transition} (h : form.removeValue target = (form', r)) :
    form.engine.DataExact form'.engine := by
  rcases removeValue_cases h with hr | ⟨_, engine, ⟨_, he⟩, hs⟩
  · exact dataExact_of_refused hr
  · rw [hs.form_eq]
    exact settle_data (Engine.Form.removeValue_data hinv he)

theorem materialize_data (hinv : form.Inv) {target : InstanceIdentity}
    {r : Except UserOperationError Transition} (h : form.materialize target = (form', r)) :
    form.engine.DataExact form'.engine := by
  rcases materialize_cases h with
    hr | ⟨seed, _, engine, hseed, ⟨⟨node, hnode, hallowed, hb⟩, he⟩, rfl, _⟩
  · exact dataExact_of_refused hr
  · have hwf := creationSeed_wf hinv.shaped hnode hb (materialize_structure hallowed) hseed
    exact settle_data (Engine.Form.materializeStructure_data hinv hwf he)

theorem appendItem_data (hinv : form.Inv) {array : InstanceIdentity}
    {r : Except UserOperationError Transition} (h : form.appendItem array = (form', r)) :
    form.engine.DataExact form'.engine := by
  rcases appendItem_cases h with hr | ⟨_, _, engine, _, _, ⟨_, he⟩, hs⟩
  · exact dataExact_of_refused hr
  · exact items_data hs
      (edited_of_ok (Engine.Form.appendArrayItem_edited form.engine_wf hinv he) rfl)

theorem insertItemBefore_data (hinv : form.Inv) {array : InstanceIdentity} {before : ItemIdentity}
    {r : Except UserOperationError Transition}
    (h : form.insertItemBefore array before = (form', r)) :
    form.engine.DataExact form'.engine := by
  rcases insertItemBefore_cases h with hr | ⟨_, _, engine, _, _, _, ⟨_, he⟩, hs⟩
  · exact dataExact_of_refused hr
  · exact items_data hs
      (edited_of_ok (Engine.Form.insertArrayItemBefore_edited form.engine_wf hinv he) rfl)

theorem removeItem_data (hinv : form.Inv) {array : InstanceIdentity} {item : ItemIdentity}
    {r : Except UserOperationError Transition} (h : form.removeItem array item = (form', r)) :
    form.engine.DataExact form'.engine := by
  rcases removeItem_cases h with hr | ⟨_, _, engine, _, _, _, ⟨_, he⟩, hs⟩
  · exact dataExact_of_refused hr
  · exact items_data hs (edited_of_ok (Engine.Form.removeArrayItem_edited hinv he) rfl)

theorem moveItem_data (hinv : form.Inv) {direction : Engine.ArrayMove} {array : InstanceIdentity}
    {item : ItemIdentity} {r : Except UserOperationError Transition}
    (h : form.moveItem direction array item = (form', r)) :
    form.engine.DataExact form'.engine := by
  rcases moveItem_cases h with hr | ⟨_, _, engine, moved, _, _, ⟨_, he⟩, rfl, _⟩
  · exact dataExact_of_refused hr
  · have hdata := (edited_of_ok (Engine.Form.moveArrayItem_edited hinv he) rfl).data
    split <;> exact hdata

theorem toggleChoice_data (hinv : form.Inv) {array : InstanceIdentity} {value : Value}
    {r : Except UserOperationError Transition} (h : form.toggleChoice array value = (form', r)) :
    form.engine.DataExact form'.engine := by
  rcases toggleChoice_cases h with hr | ⟨_, _, engine, _, _, ⟨_, he⟩, hs⟩
  · exact dataExact_of_refused hr
  · exact items_data hs
      (edited_of_ok (Engine.Form.toggleArrayChoice_edited form.engine_wf hinv he) rfl)

theorem transact_data (hinv : form.Inv) {operations : List HostOperation}
    (hwf : ∀ o ∈ operations, o.WF) {r : Except HostCommitError Transition}
    (h : form.transact operations = (form', r)) : form.engine.DataExact form'.engine := by
  rcases transact_cases hinv hwf h with hr | ⟨candidate, engine, hc, he, rfl, _⟩
  · exact dataExact_of_refused hr
  · exact hostCommitted_data hinv hwf hc he

theorem tryTransact_data (hinv : form.Inv) {operations : List HostOperation}
    (hwf : ∀ o ∈ operations, o.WF) {closure : Except Unit Unit}
    {r : Except (TransactionError Unit) Transition}
    (h : form.tryTransact operations closure = (form', r)) :
    form.engine.DataExact form'.engine := by
  rcases tryTransact_cases hinv hwf h with hr | ⟨candidate, engine, _, hc, he, rfl, _⟩
  · exact dataExact_of_refused hr
  · exact hostCommitted_data hinv hwf hc he

theorem applyExternalFindings_data {batch : ExternalFindingBatch}
    {r : Except (Failure ExternalFindingError) Transition}
    (h : form.applyExternalFindings batch = (form', r)) : form.engine.DataExact form'.engine := by
  rcases applyExternalFindings_cases h with hr | ⟨stored, _, rfl, _⟩
  · exact dataExact_of_refused hr
  · unfold withBatch
    dsimp only
    split <;> exact .of_eq rfl rfl

theorem reset_data (form : Form) : form.engine.DataExact form.reset.1.engine := by
  rw [reset_eq]
  split <;> exact Engine.Form.reset_data form.engine

theorem setFindingVisibility_data (form : Form) (policy : FindingVisibilityPolicy) :
    form.engine.DataExact (form.setFindingVisibility policy).1.engine := by
  unfold setFindingVisibility
  dsimp only
  split <;> exact .of_eq rfl rfl

theorem setReadOnly_data (form : Form) (readOnly : Bool) :
    form.engine.DataExact (form.setReadOnly readOnly).1.engine := by
  unfold setReadOnly
  dsimp only
  split <;> exact .of_eq rfl rfl

theorem step_data (hinv : form.Inv) (operation : WellFormedOperation)
    (hfresh : operation.1.startsAfresh = false)
    (hrepeat : ¬ form.RepeatsStructure operation.1) :
    form.engine.DataExact (form.step operation.1).1.engine := by
  obtain ⟨operation, hwf⟩ := operation
  cases operation with
  | inputText target text => exact inputText_data hinv rfl
  | blur target => exact blur_data rfl
  | setValue target value => exact setValue_data hinv hwf rfl
  | setNull target => exact setNull_data hinv rfl
  | removeValue target => exact removeValue_data hinv rfl
  | replaceValue target value => exact replaceValue_data hinv hwf hrepeat rfl
  | materialize target => exact materialize_data hinv rfl
  | appendItem array => exact appendItem_data hinv rfl
  | insertItemBefore array before => exact insertItemBefore_data hinv rfl
  | removeItem array item => exact removeItem_data hinv rfl
  | moveItem direction array item => exact moveItem_data hinv rfl
  | toggleChoice array value => exact toggleChoice_data hinv rfl
  | transact operations => exact transact_data hinv hwf rfl
  | tryTransact operations closure => exact tryTransact_data hinv hwf rfl
  | applyExternalFindings batch => exact applyExternalFindings_data rfl
  | reset => exact reset_data form
  | setFindingVisibility policy => exact setFindingVisibility_data form policy
  | setReadOnly readOnly => exact setReadOnly_data form readOnly
  | reinitialize formData => cases hfresh
  | prepareSubmission =>
    exact (prepareSubmission_form form).symm ▸ Engine.Form.prepareSubmission_data form.engine
  | prepareAdvisorySubmission =>
    exact (prepareAdvisorySubmission_form form).symm ▸
      Engine.Form.prepareSubmission_data form.engine

/-- Every operation counts data changes exactly, but for one: a structure replaced by an equal one
counts as changed data. -/
theorem data_revision_exact (h : formSystem.Reachable form) (operation : WellFormedOperation) :
    form.CountsExactly operation.1 ↔ ¬ form.RepeatsStructure operation.1 := by
  have hinv := reachable_inv h
  constructor
  · intro hexact hrepeat
    obtain ⟨operation, hwf⟩ := operation
    cases operation with
    | replaceValue target value =>
      obtain ⟨hrevision, hequal⟩ := repeat_counted hinv hrepeat
      have hstill : (form.replaceValue target value).1.engine.dataRevision =
          form.engine.dataRevision + if jsonValuesEqual form.formData
            (form.replaceValue target value).1.formData then 0 else 1 :=
        (countsExactly_iff rfl).mp hexact
      rw [hequal, hrevision] at hstill
      exact Nat.succ_ne_self _ hstill
    | _ => exact hrepeat
  · intro hrepeat
    cases hr : operation.1.startsAfresh with
    | false => exact (countsExactly_iff hr).mpr (step_data hinv operation hr hrepeat)
    | true =>
      obtain ⟨operation, hwf⟩ := operation
      cases operation with
      | reinitialize formData => exact reinitialize_countsExactly formData
      | _ => cases hr

theorem data_revision_exact_append :
    Sample.empty.CountsExactly (.appendItem (Sample.empty.identity 1)) ↔
      ¬ Sample.empty.RepeatsStructure (.appendItem (Sample.empty.identity 1)) :=
  data_revision_exact Sample.empty_reachable ⟨.appendItem (Sample.empty.identity 1), trivial⟩

end Form

/-! ## A multiple choice with a member that is no option -/

namespace Sample

def option : Engine.ControlDefinition := { item with kind := .choice, choices := [.string "x"] }

def multipleChoice : Engine.ArrayDefinition :=
  { array with uniqueItems := true, itemTemplate := ⟨[option], [], .string "x"⟩ }

def choices : FormDefinition where
  inner := listInner multipleChoice option
  wellFormed :=
    DefinitionInner.wellFormed_of_checked (by decide) (by decide) (by decide) (by decide) rfl

/-- The form built on `["y"]`. -/
def chosen : Form where
  definition := choices
  engine := {
    controls := []
    arrays := [⟨multipleChoice, [⟨1, [Engine.ControlState.new option]⟩], false⟩]
    nextItemIdentity := 2
    baselineArrayIdentities := [[1]]
    baseline := formData [.string "y"]
    formData := formData [.string "y"]
    externalFindingBatches := []
    submissionAttempted := false
    dataRevision := 0
    stateRevision := 0 }
  validation := .valid
  externalFindingBatches := []
  externalFindingLimits := {}
  limits := {}
  findingVisibility := {}
  readOnly := false
  id := 0

theorem chosen_reachable : formSystem.Reachable chosen :=
  .init ⟨{ definition := choices, formData := formData [.string "y"] }, 0, by decide, rfl⟩

end Sample

namespace Form

/-- The array is replaced by itself: the data stay the same and the data revision moves on. -/
theorem repeated_array_counts :
    formSystem.Reachable Sample.chosen ∧
    (Sample.chosen.step
      (.replaceValue (Sample.chosen.identity 1) (.array [.string "y"]))).1.formData =
        Sample.chosen.formData ∧
    ¬ Sample.chosen.CountsExactly
      (.replaceValue (Sample.chosen.identity 1) (.array [.string "y"])) :=
  ⟨Sample.chosen_reachable, by decide, by unfold CountsExactly; decide⟩

end Form

end Schemaform
