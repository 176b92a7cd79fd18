import Schemaform.Engine.Progress
import Schemaform.Form.Presentation
import Schemaform.Form.Topology

/-!
# Form.Commit

A committed value against the text that is being edited.

* `NodeView.displayText`: the text a control shows.
* `at_modified`, `at_clearEditStateBelow`: the edited control afterwards.
* `ValueCommitted`: the value is stored and shown, and no text of the control is pending.
* `RepeatsUnderText`: the value is there already, below text that is pending.
* `value_replaces_edit`: a committed value replaces the text unless it repeats the value below it;
  a removed value always does.
-/

namespace Schemaform

open Engine (ControlState ControlLocation)

/-! ## Display -/

def Value.asBool : Value → Option Bool
  | .bool b => some b
  | _ => none

/-- A scalar without a label of its own. -/
def unlabelledText : Value → Option String
  | .null => some "null"
  | .bool value => some (toString value)
  | .number literal => some literal
  | .string value => some value
  | .array _ | .object _ => none

/-- The text for a value. Labels of options are data that nothing else depends on; `label` gives
the label of the option with a value. -/
def scalarText (label : Value → String) (definition : DefinitionNode) (value : Value) :
    Option String :=
  match definition.semanticKind with
  | some .string => value.asString
  | some .number | some .integer => value.asNumber
  | some .boolean => value.asBool.map toString
  | some .choice | some .null =>
    ((definition.choiceOptions.find? (jsonValuesEqual · value)).map label).or (unlabelledText value)
  | some .fixedObject | some .homogeneousArray | none => none

def NodeView.displayText (label : Value → String) (node : NodeView) : Option String :=
  node.editBuffer.or (node.currentData.bind (scalarText label node.definition))

/-! ## The edited control -/

namespace Engine.Form

variable {form form' : Form} {binding : Pointer} {c : ControlState} {location : ControlLocation}

theorem at_modified (edit : ControlState → ControlState) (hd : (edit c).definition = c.definition)
    (h : form.At binding c location) :
    (form.modifyControl edit location).At binding (edit c) location := by
  cases location with
  | static i =>
    obtain ⟨hi, hb⟩ := h
    refine ⟨?_, by rw [hd, hb]⟩
    exact (List.getElem?_modify_eq ..).trans (congrArg (Option.map edit) hi)
  | arrayItem a i k =>
    obtain ⟨array, item, ha, hi, hk, hb⟩ := h
    refine ⟨_, _, (List.getElem?_modify_eq ..).trans (congrArg (Option.map _) ha),
      (List.getElem?_modify_eq ..).trans (congrArg (Option.map _) hi),
      (List.getElem?_modify_eq ..).trans (congrArg (Option.map edit) hk), ?_⟩
    rw [hd]
    exact hb

theorem at_clearEditStateBelow (below : Pointer) (h : form.At binding c location) :
    (form.clearEditStateBelow below).At binding (clearControlBelow below binding c) location := by
  cases location with
  | static i =>
    obtain ⟨hi, rfl⟩ := h
    refine ⟨?_, by rw [clearControlBelow_definition]⟩
    exact (List.getElem?_map ..).trans (congrArg _ hi)
  | arrayItem a i k =>
    obtain ⟨array, item, ha, hi, hk, rfl⟩ := h
    refine ⟨_, _, (List.getElem?_map ..).trans (congrArg _ ha),
      (List.getElem?_mapIdx ..).trans (congrArg _ hi),
      (List.getElem?_map ..).trans (congrArg _ hk), ?_⟩
    rw [clearControlBelow_definition]

theorem canonicalChoice_equal (control : ControlDefinition) (value : Value) :
    jsonValuesEqual (canonicalChoice control value) value = true := by
  unfold canonicalChoice
  cases hfound : control.choices.find? (jsonValuesEqual · value) with
  | none => exact jsonValuesEqual_refl value
  | some choice => exact List.find?_some (p := (jsonValuesEqual · value)) hfound

/-- A value that is written clears the text of its control; one that is there already does not. -/
theorem setValue_committed {definition : FormDefinition} {numbers : NumberInput} {value : Value}
    (hd : definition.WellFormed) (hinv : form.Inv definition numbers) (hv : value.WF)
    (h : form.setValue binding value = (form', .ok ())) :
    (form' = form ∧ ∃ current, binding.resolve form.formData = some current ∧
      jsonValuesEqual current value = true) ∨
    (∃ c location stored, form.At binding c location ∧
      form'.At binding c.clearEditState location ∧
      binding.resolve form'.formData = some stored ∧ jsonValuesEqual stored value = true ∧
      ∀ current, binding.resolve form.formData = some current →
        jsonValuesEqual current value = false) := by
  rcases setValue_cases h with ⟨_, _, hr⟩ | ⟨_, c, location, hat, _, hcase⟩
  · cases hr
  have hwf := canonicalChoice_wf hv (hat.definition_choices hd hinv.shaped)
  have hcanonical := canonicalChoice_equal c.definition value
  rcases hcase with ⟨rfl, hsame⟩ | ⟨formData, hne, hset, rfl⟩
  · obtain ⟨current, hcurrent, heq⟩ := (Option.any_eq_true _ _).mp hsame
    exact .inl ⟨rfl, current, hcurrent, jsonValuesEqual_trans
      (Pointer.WF_resolve hinv.formData_wf hcurrent) hwf hv heq hcanonical⟩
  · refine .inr ⟨c, location, _, hat, at_modified ControlState.clearEditState rfl hat,
      ?_, hcanonical, fun current hcurrent => ?_⟩
    · rw [dataChanged, advance_formData, modifyControl_formData]
      exact (setBoundValue_write hset).at_self
    · rw [hcurrent, Option.any_some] at hne
      refine Bool.eq_false_iff.mpr fun heq => ?_
      have hback := jsonValuesEqual_trans (Pointer.WF_resolve hinv.formData_wf hcurrent) hv hwf heq
        (jsonValuesEqual_symm hwf hv hcanonical)
      rw [hback] at hne
      cases hne

theorem arrayItemBinding_congr (h : form'.itemTable = form.itemTable) (identity : Nat) :
    form'.arrayItemBinding binding identity = form.arrayItemBinding binding identity := by
  have hids (form : Form) : form.arrayItemBinding binding identity =
      (form.arrayItemIdentities binding).bind fun ids =>
        (ids.findIdx? (· == identity)).map (arrayItemPointer binding) := by
    unfold arrayItemBinding arrayItemIdentities
    cases ha : form.array binding with
    | none => rfl
    | some array =>
      obtain ⟨_, rfl⟩ := array_mem ha
      have hindex : (array.items.findIdx? (·.identity == identity)) =
          array.identities.findIdx? (· == identity) := by
        rw [ArrayState.identities, List.findIdx?_map]
        rfl
      simp only [Option.bind_eq_bind, Option.bind_some, Option.map_some, hindex]
      cases array.identities.findIdx? (· == identity) <;> rfl
  rw [hids, hids, arrayItemIdentities_congr h]

end Engine.Form

/-! ## Committed values -/

def Operation.commits : Operation → Option (InstanceIdentity × Value)
  | .setValue target value | .replaceValue target value => some (target, value)
  | .setNull target => some (target, .null)
  | _ => none

namespace Form

variable {form form' : Form} {target : InstanceIdentity} {node : NodeView} {binding : Pointer}
  {value : Value} {label : Value → String} {engine : Engine.Form}

/-- Nothing typed and nothing rejected. -/
def TextSettled (form : Form) (binding : Pointer) : Prop :=
  ∃ c, form.engine.control binding = some c ∧ c.editBuffer = none ∧ c.parseBlocker = none

structure ValueCommitted (form : Form) (label : Value → String) (target : InstanceIdentity)
    (binding : Pointer) (value : Value) : Prop where
  text : form.TextSettled binding
  shown : ∃ node stored, form.node target = some node ∧ node.binding = some binding ∧
    node.currentData = some stored ∧ jsonValuesEqual stored value = true ∧
    node.displayText label = scalarText label node.definition stored
  submission : ∀ preparation blockers kind, form.prepareSubmission.2 = .ok preparation →
    preparation.outcome = .blocked blockers → SubmissionBlocker.parse target kind ∉ blockers

/-- The bound value is semantically the new one, and text of the control is pending. -/
def RepeatsUnderText (form : Form) (binding : Pointer) (value : Value) : Prop :=
  ∃ current c, binding.resolve form.formData = some current ∧
    jsonValuesEqual current value = true ∧ form.engine.control binding = some c ∧
    c.hasEditState = true

/-- A scalar node stands for a control. -/
theorem control_of_scalar (hinv : form.Inv) (h : form.node target = some node)
    (hb : node.binding = some binding)
    (hk : node.definition.semanticKind.any SemanticKind.isScalar = true) :
    ∃ c location, form.engine.At binding c location := by
  obtain ⟨g, hinst, hshows⟩ := node_shows hinv.shaped h hb
  rw [hinst.semanticKind] at hk
  cases hshows with
  | control c location hfound _ => exact ⟨c, location, hfound⟩
  | object o _ _ hg _ => rw [hg] at hk; cases hk
  | itemObject _ _ _ _ o _ _ _ _ _ hg _ => rw [hg] at hk; cases hk
  | array a _ _ hg _ => rw [hg] at hk; cases hk
  | unsupported u _ _ hg _ => rw [hg] at hk; cases hk

/-- A node keeps its place while no array changes its items. -/
theorem node_kept (hform : form.SameForm form')
    (htable : form'.engine.itemTable = form.engine.itemTable)
    (h : form.node target = some node) : ∃ node', form'.node target = some node' ∧
      node'.form = form' ∧ node'.definition = node.definition ∧ node'.binding = node.binding := by
  have hitems (template : Nat) (item : ItemIdentity) :
      form'.itemBinding template item = form.itemBinding template item := by
    unfold itemBinding
    rw [hform.definition]
    simp only [Engine.Form.arrayItemBinding_congr htable]
  obtain ⟨hid, hnode, hidentity, hdefinition, hitem⟩ := node_eq_some.mp h
  refine ⟨⟨form', target, node.definition⟩, node_eq_some.mpr ⟨hid.trans hform.id.symm, rfl, rfl,
    by rwa [hform.definition], ?_⟩, rfl, rfl, ?_⟩
  · cases hi : target.item with
    | none =>
      rw [hi] at hitem
      exact hitem
    | some item =>
      rw [hi] at hitem
      obtain ⟨hitemForm, howner, hsome⟩ := hitem
      exact ⟨hitemForm.trans hform.id.symm, howner, by rwa [hitems]⟩
  · unfold NodeView.binding
    rw [hidentity, hnode]
    cases target.item with
    | none => rfl
    | some item => exact congrArg (Option.bind · _) (hitems _ _)

theorem textSettled_of_at (hinv : form.Inv) {c : ControlState} {location : ControlLocation}
    (hat : form.engine.At binding c location) (hclear : c.hasEditState = false) :
    form.TextSettled binding := by
  obtain ⟨hbuffer, hblocker⟩ : c.editBuffer = none ∧ c.parseBlocker = none := by
    simpa [ControlState.hasEditState] using hclear
  exact ⟨c, Engine.Form.control_of_at form.engine_wf hinv.shaped hat, hbuffer, hblocker⟩

theorem parse_mem_blockers {kind : Engine.ParseBlocker}
    (h : SubmissionBlocker.parse target kind ∈ form.blockers) :
    ∃ reason p, (p, reason) ∈ form.engine.parseBlockers ∧
      form.submitted.identityForBinding p = some target := by
  simp only [Form.blockers, List.mem_append, validationBlockers, capabilityBlockers,
    externalBlockers] at h
  rcases h with ((h | h) | h) | h
  · obtain ⟨⟨p, reason⟩, hmem, hid⟩ := List.mem_filterMap.mp h
    obtain ⟨identity, hidentity, heq⟩ := Option.map_eq_some_iff.mp hid
    cases heq
    exact ⟨_, p, hmem, hidentity⟩
  · cases hv : form.validation with
    | valid => rw [hv] at h; cases h
    | invalid findings truncated =>
      rw [hv] at h
      rcases List.mem_append.mp h with h | h
      · obtain ⟨_, _, hf⟩ := List.mem_map.mp h
        cases hf
      · split at h
        · cases List.mem_singleton.mp h
        · cases h
    | indeterminate reason =>
      rw [hv] at h
      cases List.mem_singleton.mp h
  · obtain ⟨_, _, hf⟩ := List.mem_map.mp h
    cases hf
  · obtain ⟨_, _, hb⟩ := List.mem_flatMap.mp h
    obtain ⟨_, _, hf⟩ := List.mem_map.mp hb
    cases hf

/-- A control without rejected text is no parse blocker of a submission. -/
theorem not_blocked (hinv : form.Inv) (ht : form.TypedShown) (h : form.TextSettled binding)
    (hnode : form.node target = some node) (hb : node.binding = some binding)
    {preparation : SubmissionPreparation} {blockers : List SubmissionBlocker}
    {kind : Engine.ParseBlocker} (hp : form.prepareSubmission.2 = .ok preparation)
    (ho : preparation.outcome = .blocked blockers) :
    SubmissionBlocker.parse target kind ∉ blockers := by
  intro hmem
  have hblockers : blockers = form.blockers := by
    rw [prepareSubmission_eq hinv ht] at hp
    cases hp
    dsimp only at ho
    split at ho
    · cases ho
    · cases ho
      rfl
  rw [hblockers] at hmem
  obtain ⟨c, hcontrol, _, hnone⟩ := h
  obtain ⟨reason, p, hreason, hid⟩ := parse_mem_blockers hmem
  obtain ⟨c', hc', hblocked⟩ := mem_parseBlockers.mp hreason
  have hp : p = binding := by
    obtain ⟨node', hnode', _, _, hb'⟩ := node_kept (prepareSubmission_effect hinv).sameForm
      (Engine.Form.prepareSubmission_table form.engine) hnode
    obtain ⟨found, hfound, hbound⟩ := identityForBinding_some hid
    obtain rfl := Option.some.inj (hnode'.symm.trans hfound)
    rw [hb', hb] at hbound
    exact (Option.some.inj hbound).symm
  subst hp
  obtain ⟨location, hat⟩ := Engine.Form.exists_at hc'
  have hsame := hcontrol.symm.trans (Engine.Form.control_of_at form.engine_wf hinv.shaped hat)
  obtain rfl := Option.some.inj hsame
  rw [hnone] at hblocked
  cases hblocked

/-! ## Setting, replacing and removing -/

theorem displayText_settled (hnode : node.form = form) (hb : node.binding = some binding)
    (h : form.TextSettled binding) :
    node.displayText label = node.currentData.bind (scalarText label node.definition) := by
  obtain ⟨c, hcontrol, hbuffer, _⟩ := h
  rw [NodeView.displayText, NodeView.editBuffer, hb, Option.bind_some, hnode, hcontrol,
    Option.bind_some, hbuffer, Option.none_or]

theorem not_committed (hcontrol : form.RepeatsUnderText binding value) :
    ¬ form.ValueCommitted label target binding value := by
  rintro ⟨⟨c, hc, hbuffer, hblocker⟩, _, _⟩
  obtain ⟨_, c', _, _, hc', hpending⟩ := hcontrol
  obtain rfl := Option.some.inj (hc.symm.trans hc')
  simp [ControlState.hasEditState, hbuffer, hblocker] at hpending

theorem committed_of_stored (hinv : form.Inv) (ht : form.TypedShown)
    (hnode : form.node target = some node) (hb : node.binding = some binding)
    (htext : form.TextSettled binding) {stored : Value}
    (hstored : binding.resolve form.formData = some stored)
    (heq : jsonValuesEqual stored value = true) :
    form.ValueCommitted label target binding value := by
  have hform := (node_self hnode).1
  have hdata : node.currentData = some stored := by
    rw [NodeView.currentData, hb, Option.bind_some, hform, hstored]
  refine ⟨htext, ⟨node, stored, hnode, hb, hdata, heq, ?_⟩, fun preparation blockers kind hp ho =>
    not_blocked hinv ht htext hnode hb hp ho⟩
  rw [displayText_settled hform hb htext, hdata, Option.bind_some]

/-- The engine's `set_value`, run at the binding of a scalar node. -/
theorem setValue_committed_iff (hinv : form.Inv) (ht : form.TypedShown) (hv : value.WF)
    (hnode : form.node target = some node) (hb : node.binding = some binding)
    (he : form.engine.setValue binding value = (engine, .ok ())) :
    ({ form with engine }.settle form.revisions).ValueCommitted label target binding value ↔
      ¬ form.RepeatsUnderText binding value := by
  have heffect := setValue_settle hinv hv he
  have hinv' := heffect.inv
  have ht' := heffect.typed ht
  have hengine : ({ form with engine }.settle form.revisions).engine = engine := settle_engine _ _
  obtain ⟨node', hnode', _, _, hb'⟩ := node_kept heffect.sameForm
    ((congrArg _ hengine).trans (Engine.Form.setValue_table he)) hnode
  rw [hb] at hb'
  rcases Engine.Form.setValue_committed form.engine_wf hinv hv he with
    ⟨hsame, current, hcurrent, heq⟩ | ⟨c, location, stored, hat, hat', hstored, heq, hother⟩
  · subst hsame
    have hself : { form with engine := form.engine }.settle form.revisions = form := by
      rw [settle_eq, if_pos rfl]
    rw [hself] at hnode' hinv' ht' ⊢
    constructor
    · exact fun hcommitted hrepeats => not_committed hrepeats hcommitted
    · intro hfree
      refine committed_of_stored hinv ht hnode hb ?_ hcurrent heq
      obtain ⟨c, hcontrol⟩ : ∃ c, form.engine.control binding = some c := by
        rcases Engine.Form.setValue_cases he with ⟨_, _, hr⟩ | ⟨_, c, location, hat, _⟩
        · cases hr
        · exact ⟨c, Engine.Form.control_of_at form.engine_wf hinv.shaped hat⟩
      have hclear : c.hasEditState = false :=
        Bool.eq_false_iff.mpr fun hp => hfree ⟨current, c, hcurrent, heq, hcontrol, hp⟩
      obtain ⟨hbuffer, hblocker⟩ : c.editBuffer = none ∧ c.parseBlocker = none := by
        simpa [ControlState.hasEditState] using hclear
      exact ⟨c, hcontrol, hbuffer, hblocker⟩
  · refine iff_of_true ?_ ?_
    · rw [← hengine] at hat' hstored
      exact committed_of_stored hinv' ht' hnode' hb' (textSettled_of_at hinv' hat' rfl) hstored heq
    · rintro ⟨current, _, hcurrent, hequal, _, _⟩
      rw [hother current hcurrent] at hequal
      cases hequal

theorem removeValue_settled (hinv : form.Inv) (hnode : form.node target = some node)
    (hb : node.binding = some binding)
    (hk : node.definition.semanticKind.any SemanticKind.isScalar = true)
    {t : Transition} (h : form.removeValue target = (form', .ok t)) :
    binding.resolve form'.formData = none ∧ form'.TextSettled binding := by
  have heffect := removeValue_effect hinv h
  rcases removeValue_cases h with ⟨_, _, hr⟩ | ⟨p, engine, ⟨⟨node', hn, _, hp⟩, he⟩, hs⟩
  · cases hr
  obtain rfl := Option.some.inj (hn.symm.trans hnode)
  obtain rfl := Option.some.inj (hp.symm.trans hb)
  have hengine : form'.engine = engine := by
    rw [hs.form_eq]
    exact settle_engine _ _
  obtain ⟨c, location, hat⟩ := control_of_scalar hinv hnode hb hk
  rcases Engine.Form.removeValue_cases he with ⟨_, _, hr⟩ | ⟨_, written, htake, rfl⟩
  · cases hr
  have hreconciled :
      ({ form.engine with formData := written }.reconcileAuthoritativeArrays p).arrays =
      form.engine.arrays := by
    unfold Engine.Form.reconcileAuthoritativeArrays
    rw [Engine.Form.reconcileArrays_eq_self (no_array_below hinv hat)]
  have hat₁ : ({ form.engine with formData := written }.reconcileAuthoritativeArrays p).At p c
      location := by
    cases location with
    | static i => exact hat
    | arrayItem a i k =>
      unfold Engine.Form.At
      rw [hreconciled]
      exact hat
  have hat₂ : form'.engine.At p (Engine.Form.clearControlBelow p p c) location := by
    rw [hengine]
    have hcleared := Engine.Form.at_clearEditStateBelow p hat₁
    cases location <;> exact hcleared
  have hclear : (Engine.Form.clearControlBelow p p c).hasEditState = false := by
    rw [Engine.Form.clearControlBelow, if_pos (Pointer.startsWith_self p)]
    rfl
  refine ⟨?_, textSettled_of_at heffect.inv hat₂ hclear⟩
  change p.resolve form'.engine.formData = none
  rw [hengine]
  exact (takeBoundValue_write hinv.formData_wf htake).at_self

/-- What the three operations that commit a value leave. -/
theorem commit_iff (h : formSystem.Reachable form) (operation : WellFormedOperation)
    (hnode : form.node target = some node) (hb : node.binding = some binding)
    (hk : node.definition.semanticKind.any SemanticKind.isScalar = true)
    (hcommits : operation.1.commits = some (target, value)) {t : Transition}
    (hok : (form.step operation.1).2 = .ok t) :
    (form.step operation.1).1.ValueCommitted label target binding value ↔
      ¬ form.RepeatsUnderText binding value := by
  have hinv := reachable_inv h
  have ht := reachable_typedShown h
  have hscalar : (form.semanticKind target).any SemanticKind.isStructure = false := by
    rw [semanticKind, hnode, Option.bind_some]
    exact SemanticKind.not_structure hk
  obtain ⟨operation, hwf⟩ := operation
  cases operation with
  | setValue target' value' =>
    cases hcommits
    have hstep : form.setValue target value = ((form.step (.setValue target value)).1, .ok t) :=
      outcome_ok hok
    rcases setValue_cases hstep with ⟨_, _, hr⟩ | ⟨p, engine, ⟨⟨node', hn, _, hp⟩, he⟩, hs, _⟩
    · cases hr
    obtain rfl := Option.some.inj (hn.symm.trans hnode)
    obtain rfl := Option.some.inj (hp.symm.trans hb)
    rw [hs]
    exact setValue_committed_iff hinv ht hwf hnode hb he
  | setNull target' =>
    cases hcommits
    have hstep : form.setNull target = ((form.step (.setNull target)).1, .ok t) := outcome_ok hok
    rcases setNull_cases hstep with ⟨_, _, hr⟩ | ⟨p, engine, ⟨⟨node', hn, _, hp⟩, he⟩, hs, _⟩
    · cases hr
    obtain rfl := Option.some.inj (hn.symm.trans hnode)
    obtain rfl := Option.some.inj (hp.symm.trans hb)
    rw [hs]
    exact setValue_committed_iff hinv ht rfl hnode hb he
  | replaceValue target' value' =>
    cases hcommits
    have hstep : form.replaceValue target value =
      ((form.step (.replaceValue target value)).1, .ok t) := outcome_ok hok
    rcases replaceValue_cases hstep with ⟨_, _, hr⟩ | ⟨p, engine, ⟨⟨node', hn, _, hp⟩, he⟩, hs⟩
    · cases hr
    obtain rfl := Option.some.inj (hn.symm.trans hnode)
    obtain rfl := Option.some.inj (hp.symm.trans hb)
    rw [replaceEdit, hscalar, if_neg Bool.false_ne_true] at he
    rw [hs.form_eq]
    exact setValue_committed_iff hinv ht hwf hnode hb he
  | _ => cases hcommits

/-- A committed value replaces the text of its control, unless it repeats the value below text that
is pending; a removed value always takes the text with it. -/
theorem value_replaces_edit (h : formSystem.Reachable form) (hnode : form.node target = some node)
    (hb : node.binding = some binding)
    (hk : node.definition.semanticKind.any SemanticKind.isScalar = true) :
    (∀ (operation : WellFormedOperation) (value : Value) (t : Transition) (label : Value → String),
      operation.1.commits = some (target, value) → (form.step operation.1).2 = .ok t →
      ((form.step operation.1).1.ValueCommitted label target binding value ↔
        ¬ form.RepeatsUnderText binding value)) ∧
    ∀ t, (form.step (.removeValue target)).2 = .ok t →
      binding.resolve (form.step (.removeValue target)).1.formData = none ∧
      (form.step (.removeValue target)).1.TextSettled binding := by
  refine ⟨fun operation value t label hcommits hok => commit_iff h operation hnode hb hk hcommits hok,
    fun t hok => ?_⟩
  have hstep : form.removeValue target = ((form.step (.removeValue target)).1, .ok t) :=
    outcome_ok hok
  exact removeValue_settled (reachable_inv h) hnode hb hk hstep

end Form

/-! ## A value repeated below rejected text -/

namespace Sample

/-- Text that is no number has been typed. -/
def fiveTyped : Form := formSystem.run five [⟨.inputText (five.identity 1) "x", trivial⟩]

theorem fiveTyped_reachable : formSystem.Reachable fiveTyped := five_reachable.run _

end Sample

namespace Form

open Sample

theorem value_replaces_edit_seven :
    (five.step (.replaceValue (five.identity 1) (.number "7"))).1.ValueCommitted (fun _ => "option")
      (five.identity 1) ["n"] (.number "7") := by
  have hnode : five.node (five.identity 1) =
    some ⟨five, five.identity 1, .showing 1 none (generatedControl none secret) []⟩ := rfl
  have hwf : (Operation.replaceValue (five.identity 1) (.number "7")).WF :=
    show Value.WF (.number "7") by decide
  refine ((value_replaces_edit five_reachable hnode rfl rfl).1 ⟨_, hwf⟩ (.number "7") _ _ rfl
    rfl).mpr ?_
  rintro ⟨current, c, hcurrent, heq, _, _⟩
  obtain rfl := Option.some.inj hcurrent
  exact absurd heq (by decide)

/-- The five is replaced by a five, and the rejected text still blocks the submission. -/
theorem repeated_value_keeps_text : formSystem.Reachable fiveTyped ∧
    (∃ t, (fiveTyped.step (.replaceValue (fiveTyped.identity 1) (.number "5"))).2 = .ok t) ∧
    ¬ (fiveTyped.step (.replaceValue (fiveTyped.identity 1) (.number "5"))).1.TextSettled ["n"] ∧
    ∃ preparation,
      (fiveTyped.step (.replaceValue (fiveTyped.identity 1) (.number "5"))).1.prepareSubmission.2 =
        .ok preparation ∧
      preparation.outcome = .blocked [.parse (fiveTyped.identity 1) .invalidNumber] := by
  refine ⟨fiveTyped_reachable, ⟨_, rfl⟩, ?_, _, rfl, rfl⟩
  rintro ⟨c, hc, hbuffer, _⟩
  obtain rfl := Option.some.inj hc
  cases hbuffer

end Form

end Schemaform
