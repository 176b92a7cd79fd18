import Schemaform.Dioxus.Edit
import Schemaform.Dioxus.HandleSpec
import Schemaform.Form.Agreement
import Schemaform.Form.Toggling

/-!
# Dioxus.EditSpec

What a control offers can be set, and what it does not offer is refused.

* `Served`, `Refuses`: how a call ends for its caller.
* `option_unique`, `find_option`: the identity of an option finds the option.
* `boolean_edits_agree`, `choice_options_agree`, `multiple_choice_options_agree`.
-/

namespace Schemaform.Dioxus

/-! ## Calls on one node -/

/-- The call succeeded or met a limit. -/
def Served (result : Except HandleError Transition) : Prop :=
  (∃ t, result = .ok t) ∨
    ∃ error, result = .error (.operation (.user (.resourceLimit error)))

/-- The core has no such offer, and nothing happens. -/
def Refuses (handle : HandleInner) (called : Called) : Prop :=
  called = ⟨handle, [], .error (.operation (.user .operationNotAllowed))⟩

section Calls

variable {handle : HandleInner} {target : InstanceIdentity} {node : NodeView} {value : Value}

theorem applyOperation_served (hlive : handle.disposed = false) {operation : Operation}
    (h : Schemaform.Served (handle.form.step operation).2) :
    Served (handle.applyOperation operation).result := by
  rcases h with ⟨t, ht⟩ | ⟨error, he⟩
  · rw [HandleInner.applyOperation_ok hlive ht]
    exact .inl ⟨t, rfl⟩
  · rw [HandleInner.applyOperation_error hlive he]
    exact .inr ⟨error, rfl⟩

theorem applyOperation_refused (hlive : handle.disposed = false)
    (hnode : handle.form.node target = some node) (operation : Operation)
    {allowed : AllowedOperations → Bool} (htarget : operation.target = some target)
    (hpermission : operation.permission = some allowed)
    (h : allowed node.allowedOperations = false)
    (hown : ∀ item, operation.itemArgument = some item → item.form = handle.form.id) :
    Refuses handle (handle.applyOperation operation) := by
  have hstep := Form.not_offered hnode htarget hpermission h hown
  unfold Refuses
  rw [HandleInner.applyOperation_error hlive (congrArg Prod.snd hstep), hstep]

/-- A node that is no object and no array shows a control, which tells what it accepts. -/
theorem exists_control (hinv : handle.form.Inv) (hnode : handle.form.node target = some node)
    {kind : SemanticKind} (hkind : node.definition.semanticKind = some kind)
    (hscalar : kind ≠ .fixedObject ∧ kind ≠ .homogeneousArray) :
    ∃ binding control, node.binding = some binding ∧ controlSemanticKind control = kind ∧
      node.definition.choiceOptions = control.choices ∧ ∀ value,
        node.form.engine.controlAcceptsValue binding value =
          some (Engine.controlValueIsCompatible control value) := by
  obtain ⟨binding, hb⟩ := Form.bound_of_semanticKind hnode (by simp [hkind])
  obtain ⟨g, hinst, hshows⟩ := Form.node_shows hinv.shaped hnode hb
  rw [hinst.semanticKind] at hkind
  cases hshows with
  | object o _ _ hg _ =>
    subst hg
    exact absurd (Option.some.inj hkind).symm hscalar.1
  | itemObject a i state item o _ _ _ _ _ hg _ =>
    subst hg
    exact absurd (Option.some.inj hkind).symm hscalar.1
  | array a _ _ hg _ =>
    subst hg
    exact absurd (Option.some.inj hkind).symm hscalar.2
  | unsupported u _ _ hg _ =>
    subst hg
    cases hkind
  | control c location hat hg =>
    subst hg
    refine ⟨binding, c.definition, hb, Option.some.inj hkind, hinst.choiceOptions, fun value => ?_⟩
    rw [(Form.node_eq_some.mp hnode).2.1, Engine.Form.controlAcceptsValue,
      Engine.Form.control_of_at handle.form.engine_wf hinv.shaped hat, Option.map_some]

/-- An option of a scalar choice is a value its control accepts. -/
theorem option_accepted (hinv : handle.form.Inv) (hnode : handle.form.node target = some node)
    (hkind : node.definition.semanticKind = some .choice)
    (hoption : value ∈ node.definition.choiceOptions) (hnull : value.isNull = false) :
    node.Accepts value := by
  obtain ⟨binding, control, hb, hcontrol, hchoices, haccepts⟩ :=
    exists_control hinv hnode hkind (by decide)
  rw [hchoices] at hoption
  refine ⟨hnull, binding, hb, (haccepts value).trans (congrArg some ?_)⟩
  have hany : control.choices.any (jsonValuesEqual · value) = true :=
    List.any_eq_true.mpr ⟨value, hoption, jsonValuesEqual_refl value⟩
  unfold controlSemanticKind at hcontrol
  unfold Engine.controlValueIsCompatible
  rw [hnull]
  cases hk : control.kind <;> rw [hk] at hcontrol <;>
    first | exact hany | cases hcontrol

theorem boolean_accepted (hinv : handle.form.Inv) (hnode : handle.form.node target = some node)
    (hkind : node.definition.semanticKind = some .boolean) (checked : Bool) :
    node.Accepts (.bool checked) := by
  obtain ⟨binding, control, hb, hcontrol, -, haccepts⟩ :=
    exists_control hinv hnode hkind (by decide)
  refine ⟨rfl, binding, hb, (haccepts _).trans (congrArg some ?_)⟩
  unfold controlSemanticKind at hcontrol
  unfold Engine.controlValueIsCompatible
  cases hk : control.kind <;> rw [hk] at hcontrol <;> first | rfl | cases hcontrol

theorem setOrReplace_served (hinv : handle.form.Inv) (hlive : handle.disposed = false)
    (hnode : handle.form.node target = some node)
    (hscalar : node.definition.semanticKind ≠ some .fixedObject ∧
      node.definition.semanticKind ≠ some .homogeneousArray) (hv : node.Accepts value)
    (h : (node.allowedOperations.setValue || node.allowedOperations.replaceValue) = true) :
    Served (setOrReplace handle target value (some node.allowedOperations)).result := by
  unfold setOrReplace
  rw [Option.any_some]
  split
  · rename_i hreplace
    have hdocumented : node.Documented (.replaceValue target value) := by
      unfold NodeView.Documented
      dsimp only
      split
      · rename_i hobject
        exact absurd hobject hscalar.1
      · rename_i harray
        exact absurd harray hscalar.2
      · exact hv
    exact applyOperation_served hlive
      (Form.replaceValue_limited hinv hnode hreplace hdocumented).served
  · rename_i hreplace
    have hset : node.allowedOperations.setValue = true := by simpa [hreplace] using h
    exact applyOperation_served hlive (Form.setValue_limited hinv hnode hset hv).served

theorem setOrReplace_refused (hlive : handle.disposed = false)
    (hnode : handle.form.node target = some node)
    (h : (node.allowedOperations.setValue || node.allowedOperations.replaceValue) = false) :
    Refuses handle (setOrReplace handle target value (some node.allowedOperations)) := by
  rw [Bool.or_eq_false_iff] at h
  unfold setOrReplace
  rw [Option.any_some, h.2]
  exact applyOperation_refused hlive hnode (.setValue target value) rfl rfl h.1 nofun

end Calls

/-! ## Options -/

theorem choiceIdentity_inj {i j : Nat} (h : "choice-" ++ Nat.repr i = "choice-" ++ Nat.repr j) :
    i = j := by
  have hlist := congrArg String.toList h
  rw [String.toList_append, String.toList_append] at hlist
  exact Token.repr_inj (String.toList_inj.mp (List.append_cancel_left hlist))

section Options

variable {label : Value → String} {handle : HandleInner} {target : InstanceIdentity}
  {node : NodeView} {option : ChoiceOptionProjection}

theorem projectNode_option (hoption : option ∈ (projectNode label node).choiceOptions) :
    ∃ index, node.definition.choiceOptions[index]? = some option.value ∧
      option.identity = "choice-" ++ Nat.repr index := by
  obtain ⟨index, hindex, rfl⟩ := List.mem_mapIdx.mp hoption
  exact ⟨index, List.getElem?_eq_getElem hindex, rfl⟩

/-- An identity names one option. -/
theorem option_unique {other : ChoiceOptionProjection}
    (hoption : option ∈ (projectNode label node).choiceOptions)
    (hother : other ∈ (projectNode label node).choiceOptions)
    (h : option.identity = other.identity) : option = other := by
  obtain ⟨i, hi, rfl⟩ := List.mem_mapIdx.mp hoption
  obtain ⟨j, hj, rfl⟩ := List.mem_mapIdx.mp hother
  obtain rfl := choiceIdentity_inj h
  rfl

theorem find_option (entry : ChoiceOptionProjection → ChoiceEntry)
    (hidentity : ∀ o, (entry o).option.identity = o.identity)
    (hoption : option ∈ (projectNode label node).choiceOptions) :
    ((projectNode label node).choiceOptions.map entry).find?
      (·.option.identity == option.identity) = some (entry option) := by
  rw [List.find?_map]
  cases hfind : (projectNode label node).choiceOptions.find?
      ((fun e : ChoiceEntry => e.option.identity == option.identity) ∘ entry) with
  | none =>
    have hnone := List.find?_eq_none.mp hfind option hoption
    simp [hidentity] at hnone
  | some other =>
    have hmem := List.mem_of_find?_eq_some hfind
    have heq := List.find?_some hfind
    simp only [Function.comp_apply, hidentity, beq_iff_eq] at heq
    rw [option_unique hmem hoption heq]
    rfl

theorem readUntracked_node (hlive : handle.disposed = false)
    (hnode : handle.form.node target = some node) :
    readUntracked label handle target = some (projectNode label node) := by
  simp [readUntracked, NodeReader.read, HandleInner.ensureLive_live hlive, hnode, Except.toOption]

theorem selected_ne (hoption : option ∈ (projectNode label node).choiceOptions)
    (hcurrent : node.isWriteOnly = true ∨ option.selected = false) :
    (!(choiceStateOf (projectNode label node)).writeOnly &&
      (choiceStateOf (projectNode label node)).selected == some option.identity) = false := by
  cases hwrite : node.isWriteOnly with
  | true =>
    have hstate : (choiceStateOf (projectNode label node)).writeOnly = true := hwrite
    rw [hstate]
    rfl
  | false =>
    rw [hwrite] at hcurrent
    have hplain := hcurrent.resolve_left Bool.false_ne_true
    have hstate : (choiceStateOf (projectNode label node)).selected =
        ((projectNode label node).choiceOptions.find? (·.selected)).map (·.identity) := by
      have hproject : (projectNode label node).writeOnly = false := hwrite
      simp [choiceStateOf, hproject]
    rw [hstate, Bool.and_eq_false_iff]
    refine .inr (beq_eq_false_iff_ne.mpr fun heq => ?_)
    obtain ⟨other, hfind, hidentity⟩ := Option.map_eq_some_iff.mp heq
    obtain rfl := option_unique (List.mem_of_find?_eq_some hfind) hoption hidentity
    rw [List.find?_some hfind] at hplain
    cases hplain

theorem select_eq (hlive : handle.disposed = false) (hnode : handle.form.node target = some node)
    (rendered : Option ChoiceState) (hoption : option ∈ (projectNode label node).choiceOptions)
    (hcurrent : node.isWriteOnly = true ∨ option.selected = false) :
    (ChoiceEdit.select label handle target rendered (some option.identity)).handle =
      (ChoiceEdit.call handle target (choiceStateOf (projectNode label node))
        (choiceEntry (projectNode label node) option)).handle ∧
    (ChoiceEdit.select label handle target rendered (some option.identity)).result =
      some (ChoiceEdit.call handle target (choiceStateOf (projectNode label node))
        (choiceEntry (projectNode label node) option)).result := by
  have hstate : ChoiceEdit.currentState label handle target rendered =
      some (choiceStateOf (projectNode label node)) := by
    rw [ChoiceEdit.currentState, readUntracked_node hlive hnode]
    rfl
  have hentry : (some option.identity).bind (fun identity =>
      (choiceStateOf (projectNode label node)).entries.find? (·.option.identity == identity)) =
      some (choiceEntry (projectNode label node) option) :=
    find_option (choiceEntry (projectNode label node)) (fun _ => rfl) hoption
  have hother := selected_ne hoption hcurrent
  unfold ChoiceEdit.select
  rw [hstate]
  dsimp only
  rw [hentry]
  dsimp only
  rw [if_neg]
  · exact ⟨rfl, rfl⟩
  · rw [Bool.not_eq_true]
    exact hother

/-! ## Values -/

/-- What a boolean control offers its user: the empty state, or a value. -/
def offersBoolean (operations : AllowedOperations) : Option Bool → Bool
  | none => operations.setNull
  | some _ => operations.setValue || operations.replaceValue

/-- What a boolean control offers can be set, as far as the limits go; anything else is refused, and
the widget is put back to what it showed. -/
theorem boolean_edits_agree (h : handleSystem.Reachable handle) (hlive : handle.disposed = false)
    (hnode : handle.form.node target = some node)
    (hkind : node.definition.semanticKind = some .boolean) (rendered : Option BooleanState)
    (value : Option Bool) :
    (offersBoolean node.allowedOperations value = true →
      ∃ result, (BooleanEdit.set label handle target rendered value).result = some result ∧
        Served result) ∧
    (offersBoolean node.allowedOperations value = false →
      (BooleanEdit.set label handle target rendered value).result =
        some (.error (.operation (.user .operationNotAllowed))) ∧
      (BooleanEdit.set label handle target rendered value).handle = handle ∧
      (BooleanEdit.set label handle target rendered value).resynchronized =
        some (booleanStateOf (projectNode label node)).checked) := by
  have hinv := Form.reachable_inv (HandleInner.current_invariant.reachable h).reachable
  have hstate : BooleanEdit.currentState label handle target rendered =
      some (booleanStateOf (projectNode label node)) := by
    rw [BooleanEdit.currentState, readUntracked_node hlive hnode]
    rfl
  have hoperations : (booleanStateOf (projectNode label node)).operations =
      node.allowedOperations := rfl
  unfold BooleanEdit.set
  rw [hstate]
  simp only [Option.map_some, hoperations]
  cases value with
  | none =>
    refine ⟨fun hoffer => ⟨_, rfl, ?_⟩, fun hoffer => ?_⟩
    · exact applyOperation_served hlive (Form.setNull_limited hinv hnode hoffer).served
    · have hrefused : handle.setNull target = ⟨handle, [], _⟩ :=
        applyOperation_refused hlive hnode (.setNull target) rfl rfl hoffer nofun
      simp only [hrefused]
      exact ⟨trivial, trivial, rfl⟩
  | some checked =>
    refine ⟨fun hoffer => ⟨_, rfl, ?_⟩, fun hoffer => ?_⟩
    · exact setOrReplace_served hinv hlive hnode (by simp [hkind])
        (boolean_accepted hinv hnode hkind checked) hoffer
    · have hrefused : setOrReplace handle target (.bool checked) (some node.allowedOperations) =
          ⟨handle, [], _⟩ := setOrReplace_refused hlive hnode hoffer
      simp only [hrefused]
      exact ⟨trivial, trivial, rfl⟩

/-! ## Choices -/

/-- An option of a choice other than the selected one can be selected unless it is disabled, as far
as the limits go; a disabled one is refused. -/
theorem choice_options_agree (h : handleSystem.Reachable handle) (hlive : handle.disposed = false)
    (hnode : handle.form.node target = some node)
    (hkind : node.definition.semanticKind = some .choice) (rendered : Option ChoiceState)
    (hoption : option ∈ (projectNode label node).choiceOptions)
    (hcurrent : node.isWriteOnly = true ∨ option.selected = false) :
    ((choiceEntry (projectNode label node) option).option.disabled = false →
      ∃ result, (ChoiceEdit.select label handle target rendered (some option.identity)).result =
        some result ∧ Served result) ∧
    ((choiceEntry (projectNode label node) option).option.disabled = true →
      (ChoiceEdit.select label handle target rendered (some option.identity)).result =
        some (.error (.operation (.user .operationNotAllowed))) ∧
      (ChoiceEdit.select label handle target rendered (some option.identity)).handle = handle) := by
  have hinv := Form.reachable_inv (HandleInner.current_invariant.reachable h).reachable
  obtain ⟨hhandle, hresult⟩ := select_eq hlive hnode rendered hoption hcurrent
  have hplain : (!(projectNode label node).writeOnly && option.selected) = false := by
    rcases hcurrent with hwrite | hplain
    · have hproject : (projectNode label node).writeOnly = true := hwrite
      rw [hproject]
      rfl
    · rw [hplain, Bool.and_false]
  have hdisabled : (choiceEntry (projectNode label node) option).option.disabled =
      !(if option.value.isNull then node.allowedOperations.setNull
        else node.allowedOperations.setValue || node.allowedOperations.replaceValue) := by
    simp only [choiceEntry, hplain]
    rfl
  rw [hhandle, hresult, hdisabled]
  cases hnull : option.value.isNull with
  | true =>
    have hcall : ChoiceEdit.call handle target (choiceStateOf (projectNode label node))
        (choiceEntry (projectNode label node) option) = handle.setNull target := by
      simp [ChoiceEdit.call, choiceEntry, hnull]
    rw [hcall, if_pos rfl]
    constructor
    · intro henabled
      have hoffer : node.allowedOperations.setNull = true := by simpa using henabled
      exact ⟨_, rfl, applyOperation_served hlive (Form.setNull_limited hinv hnode hoffer).served⟩
    · intro hdisabled
      have hoffer : node.allowedOperations.setNull = false := by simpa using hdisabled
      have hrefused := applyOperation_refused hlive hnode (.setNull target) rfl rfl hoffer nofun
      rw [HandleInner.setNull, hrefused]
      exact ⟨rfl, rfl⟩
  | false =>
    have hcall : ChoiceEdit.call handle target (choiceStateOf (projectNode label node))
        (choiceEntry (projectNode label node) option) =
          setOrReplace handle target option.value (some node.allowedOperations) := by
      simp [ChoiceEdit.call, choiceEntry, hnull, choiceStateOf, projectNode]
    obtain ⟨index, hindex, -⟩ := projectNode_option hoption
    have haccepts := option_accepted hinv hnode hkind (List.mem_of_getElem? hindex) hnull
    rw [hcall, if_neg Bool.false_ne_true]
    constructor
    · intro henabled
      exact ⟨_, rfl, setOrReplace_served hinv hlive hnode (by simp [hkind]) haccepts
        (by rwa [Bool.not_eq_false'] at henabled)⟩
    · intro hdisabled
      rw [setOrReplace_refused hlive hnode (by simpa using hdisabled)]
      exact ⟨rfl, rfl⟩

/-- An option of a multiple choice can be toggled unless it is disabled, as far as the limits go; one
that is disabled though it may be read is refused. -/
theorem multiple_choice_options_agree (h : handleSystem.Reachable handle)
    (hlive : handle.disposed = false) (hnode : handle.form.node target = some node)
    (rendered : Option MultipleChoiceState)
    (hoption : option ∈ (projectNode label node).choiceOptions) :
    (multipleChoiceIsDisabled (projectNode label node) = false →
      ∃ result, (MultipleChoiceEdit.toggle label handle target rendered option.identity).result =
        some result ∧ Served result) ∧
    (multipleChoiceIsDisabled (projectNode label node) = true → node.isWriteOnly = false →
      (MultipleChoiceEdit.toggle label handle target rendered option.identity).result =
        some (.error (.operation (.user .operationNotAllowed))) ∧
      (MultipleChoiceEdit.toggle label handle target rendered option.identity).handle = handle ∧
      (MultipleChoiceEdit.toggle label handle target rendered option.identity).resynchronized =
        some (option.identity, (multipleChoiceStateOf (projectNode label node)).selected.contains
          option.identity)) := by
  have hinv := Form.reachable_inv (HandleInner.current_invariant.reachable h).reachable
  have hstate : MultipleChoiceEdit.currentState label handle target rendered =
      some (multipleChoiceStateOf (projectNode label node)) := by
    rw [MultipleChoiceEdit.currentState, readUntracked_node hlive hnode]
    rfl
  have hentry : (multipleChoiceStateOf (projectNode label node)).entries.find?
      (·.option.identity == option.identity) = some ⟨⟨option.identity, option.value.isNull,
        multipleChoiceIsDisabled (projectNode label node)⟩, option.value⟩ :=
    find_option (fun option => ⟨⟨option.identity, option.value.isNull,
        multipleChoiceIsDisabled (projectNode label node)⟩, option.value⟩) (fun _ => rfl) hoption
  unfold MultipleChoiceEdit.toggle
  rw [hstate]
  dsimp only
  rw [hentry]
  dsimp only
  constructor
  · intro henabled
    simp only [multipleChoiceIsDisabled, Bool.or_eq_false_iff, Bool.not_eq_false'] at henabled
    obtain ⟨index, hindex, -⟩ := projectNode_option hoption
    have hdocumented : node.Documented (.toggleChoice target option.value) :=
      ⟨option.value, List.mem_of_getElem? hindex, jsonValuesEqual_refl option.value⟩
    exact ⟨_, rfl, applyOperation_served hlive
      (Form.toggleChoice_limited hinv hnode henabled.2 hdocumented).served⟩
  · intro hdisabled hread
    have hproject : (projectNode label node).writeOnly = false := hread
    simp only [multipleChoiceIsDisabled, hproject, Bool.false_or, Bool.not_eq_true'] at hdisabled
    have hrefused := applyOperation_refused hlive hnode (.toggleChoice target option.value) rfl rfl
      hdisabled nofun
    rw [HandleInner.toggleChoice, hrefused]
    exact ⟨rfl, rfl, rfl⟩

end Options

end Dioxus

/-! ## One letter of two -/

namespace Sample

def oneLetter : Engine.ControlDefinition where
  binding := ["c"]
  parentBinding := none
  kind := .choice
  choices := [.string "a", .string "b"]
  acceptsNull := false
  annotations := {}
  creationSeed := some (.string "a")
  required := false

def choosing : FormDefinition where
  inner := {
    engine := ⟨[oneLetter], [], [], [], {}⟩
    validator := ⟨fun _ => []⟩
    parser := Engine.Sample.parser
    nodes := [.root {} [1], .showing 1 none (generatedControl none oneLetter) []]
    annotationScopes := annotationScopesOf ⟨[oneLetter], [], [], [], {}⟩
    capabilityFindings := [] }
  wellFormed :=
    DefinitionInner.wellFormed_of_checked (by decide) (by decide) (by decide) (by decide) rfl

/-- The form built on data in which the first letter is chosen. -/
def chose : Form where
  definition := choosing
  engine := {
    controls := [.new oneLetter]
    arrays := []
    nextItemIdentity := 1
    baselineArrayIdentities := []
    baseline := .object [("c", .string "a")]
    formData := .object [("c", .string "a")]
    externalFindingBatches := []
    submissionAttempted := false
    dataRevision := 0
    stateRevision := 0 }
  validation := .valid
  externalFindingBatches := []
  externalFindingLimits := {}
  limits := {}
  findingVisibility := {}
  readOnly := false
  id := 0

theorem chose_reachable : Dioxus.handleSystem.Reachable (Dioxus.FormHandle.new chose) :=
  .init ⟨chose, ⟨{ definition := choosing, formData := .object [("c", .string "a")] }, 0,
    by decide, rfl⟩, rfl⟩

def choseNode : NodeView :=
  ⟨chose, chose.identity 1, .showing 1 none (generatedControl none oneLetter) []⟩

/-- A flag that may be null, and is set. -/
def flag : Engine.ControlDefinition where
  binding := ["f"]
  parentBinding := none
  kind := .boolean
  choices := []
  acceptsNull := true
  annotations := {}
  creationSeed := some (.bool false)
  required := false

def flagging : FormDefinition where
  inner := {
    engine := ⟨[flag], [], [], [], {}⟩
    validator := ⟨fun _ => []⟩
    parser := Engine.Sample.parser
    nodes := [.root {} [1], .showing 1 none (generatedControl none flag) []]
    annotationScopes := annotationScopesOf ⟨[flag], [], [], [], {}⟩
    capabilityFindings := [] }
  wellFormed :=
    DefinitionInner.wellFormed_of_checked (by decide) (by decide) (by decide) (by decide) rfl

def flagged : Form where
  definition := flagging
  engine := {
    controls := [.new flag]
    arrays := []
    nextItemIdentity := 1
    baselineArrayIdentities := []
    baseline := .object [("f", .bool true)]
    formData := .object [("f", .bool true)]
    externalFindingBatches := []
    submissionAttempted := false
    dataRevision := 0
    stateRevision := 0 }
  validation := .valid
  externalFindingBatches := []
  externalFindingLimits := {}
  limits := {}
  findingVisibility := {}
  readOnly := false
  id := 0

theorem flagged_reachable : Dioxus.handleSystem.Reachable (Dioxus.FormHandle.new flagged) :=
  .init ⟨flagged, ⟨{ definition := flagging, formData := .object [("f", .bool true)] }, 0,
    by decide, rfl⟩, rfl⟩

def flaggedNode : NodeView :=
  ⟨flagged, flagged.identity 1, .showing 1 none (generatedControl none flag) []⟩

end Sample

namespace Dioxus

open Sample

/-- The flag is set to null. -/
theorem boolean_edits_agree_null :
    ∃ result, (BooleanEdit.set Value.text (FormHandle.new flagged) (flagged.identity 1) none
      none).result = some result ∧ Served result :=
  (@boolean_edits_agree Value.text _ _ flaggedNode flagged_reachable rfl rfl rfl none none).1
    (by decide)

theorem choice_options_agree_letter :
    ∃ result, (ChoiceEdit.select Value.text (FormHandle.new chose) (chose.identity 1) none
      (some "choice-1")).result = some result ∧ Served result :=
  (@choice_options_agree Value.text _ _ choseNode ⟨"choice-1", .string "b", false⟩ chose_reachable
    rfl rfl rfl none (by decide) (.inr rfl)).1 rfl

theorem noLetters_handle : handleSystem.Reachable (FormHandle.new noLetters) :=
  .init ⟨noLetters, ⟨{ definition := letters, formData := formData [] }, 0, by decide, rfl⟩, rfl⟩

def noLettersNode : NodeView :=
  ⟨noLetters, noLetters.identity 1, .showing 1 none (generatedArray letterArray) [2]⟩

theorem multiple_choice_options_agree_letter :
    ∃ result, (MultipleChoiceEdit.toggle Value.text (FormHandle.new noLetters)
      (noLetters.identity 1) none "choice-1").result = some result ∧ Served result :=
  (@multiple_choice_options_agree Value.text _ _ noLettersNode ⟨"choice-1", .string "b", false⟩
    noLetters_handle rfl rfl none (by decide)).1 rfl

end Dioxus

end Schemaform
