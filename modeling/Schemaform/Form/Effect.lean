import Schemaform.Form.LifecycleSpec
import Schemaform.Lib.Sort

/-!
# Form.Effect

What any operation may do to a form, and what follows for every form an application can hold.

* `Effect`: the engine takes a step, cached validation follows the data, and only a call that
  advances the state revision leaves another form.
* `Ordered`: stored findings in order, no batch empty.
* `step_effect`: every operation has an effect.
* `reachable_inv`, `reachable_ordered`: the invariants over all reachable forms.
-/

namespace Schemaform

namespace Form

open Engine (EditError ControlState)

variable {form form' : Form} {engine : Engine.Form}

/-! ## Stored findings in order -/

/-- No stored batch is empty or out of order. -/
def Ordered (form : Form) : Prop :=
  ∀ batch ∈ form.externalFindingBatches, batch.findings ≠ [] ∧
    batch.findings.Pairwise fun left right => (compareExternalFindings left right).isLE = true

theorem sortExternalFindings_pairwise (findings : List ExternalFinding) :
    (sortExternalFindings findings).Pairwise fun left right =>
      (compareExternalFindings left right).isLE = true :=
  List.pairwise_insertionSort _ findings

theorem sortExternalFindings_ne_nil {findings : List ExternalFinding} (h : findings ≠ []) :
    sortExternalFindings findings ≠ [] := by
  intro he
  exact h (List.length_eq_zero_iff.mp
    ((List.perm_insertionSort _ findings).length_eq.symm.trans (congrArg List.length he)))

/-- A rebase that drops nothing. -/
theorem filterMap_rebaseFinding (move : Pointer → Pointer) (findings : List ExternalFinding) :
    findings.filterMap (rebaseFinding fun location => some (move location)) =
      findings.map fun finding =>
        { finding with instanceLocation := move finding.instanceLocation } := by
  rw [← List.filterMap_eq_map]
  rfl

/-- A rebase that moves nothing leaves a batch in order as it is. -/
theorem rebaseBatch_eq_self {rebase : Pointer → Option Pointer} {batch : ExternalFindingBatch}
    (hsorted : batch.findings.Pairwise fun left right =>
      (compareExternalFindings left right).isLE = true)
    (h : ∀ location, rebase location = some location) : rebaseBatch rebase batch = batch := by
  obtain rfl : rebase = fun location => some location := funext h
  simp only [rebaseBatch, filterMap_rebaseFinding (fun location => location), List.map_id',
    sortExternalFindings, hsorted.insertionSort_eq]

theorem rebaseForTopologies_ordered (form : Form) (before after : List HostArrayTopology)
    (unmatched : UnmatchedFinding) :
    (form.rebaseExternalFindingsForTopologies before after unmatched).Ordered := by
  intro batch hbatch
  obtain ⟨hmem, hne⟩ := List.mem_filter.mp hbatch
  obtain ⟨original, _, rfl⟩ := List.mem_map.mp hmem
  exact ⟨by simpa using hne, sortExternalFindings_pairwise _⟩

theorem moveExternalFindings_ordered (h : form.Ordered) (array : Pointer)
    (source destination : Nat) : (form.moveExternalFindings array source destination).Ordered := by
  intro batch hbatch
  obtain ⟨original, hmem, rfl⟩ := List.mem_map.mp hbatch
  refine ⟨sortExternalFindings_ne_nil ?_, sortExternalFindings_pairwise _⟩
  rw [filterMap_rebaseFinding]
  simpa using (h original hmem).1

/-! ## Topologies that do not change -/

theorem rebasePointer_eq_some {location source destination moved : Pointer}
    (h : rebasePointer location source destination = some moved) :
    ∃ rest, location = source ++ rest ∧ moved = destination ++ rest := by
  unfold rebasePointer at h
  split at h
  · rename_i hs
    obtain ⟨rest, rfl⟩ := Pointer.startsWith_iff.mp hs
    cases h
    exact ⟨rest, rfl, by rw [List.drop_left]⟩
  · cases h

theorem rebaseInArray_same {array location : Pointer} {items after : List Engine.HostArrayItem}
    {index : Nat} (hnd : after.Nodup) (h : after.drop index = items) :
    rebaseInArray array location after index items = .elsewhere ∨
    rebaseInArray array location after index items = .moved location := by
  induction items generalizing index with
  | nil => exact .inl rfl
  | cons item items ih =>
    have hitem : after[index]? = some item := by
      rw [← List.head?_drop, h, List.head?_cons]
    have hrest : after.drop (index + 1) = items := by
      rw [← List.drop_drop, h]
      rfl
    unfold rebaseInArray
    split
    · exact ih hrest
    · rename_i relative hrelative
      obtain ⟨rest, rfl, rfl⟩ := rebasePointer_eq_some hrelative
      obtain ⟨hlt, rfl⟩ := List.getElem?_eq_some_iff.mp hitem
      have hfind : after.findIdx? (· == after[index]) = some index := by
        have := hnd.idxOf_getElem index hlt
        rw [List.findIdx?_eq_some_iff_getElem]
        refine ⟨hlt, by simp, fun j hj => ?_⟩
        simpa using fun he => Nat.ne_of_lt hj ((List.Nodup.getElem_inj_iff hnd).mp he)
      rw [hfind]
      exact .inr rfl

theorem rebaseLocation_same {unmatched : UnmatchedFinding} {location : Pointer}
    {topologies : List (HostArrayTopology × HostArrayTopology)}
    (h : ∀ t ∈ topologies, t.1.items = t.2.items ∧ t.2.items.Nodup) :
    rebaseLocation unmatched topologies location = some location := by
  induction topologies with
  | nil => rfl
  | cons t topologies ih =>
    obtain ⟨⟨heq, hnd⟩, hrest⟩ := List.forall_mem_cons.mp h
    have hsame := @rebaseInArray_same t.1.binding location t.2.items t.2.items 0 hnd rfl
    unfold rebaseLocation
    rw [heq]
    rcases hsame with he | he <;> rw [he] <;> exact ih hrest

theorem rebaseForTopologies_same (hord : form.Ordered) {before after : List HostArrayTopology}
    (h : ∀ t ∈ before.zip after, t.1.items = t.2.items ∧ t.2.items.Nodup)
    (unmatched : UnmatchedFinding) :
    form.rebaseExternalFindingsForTopologies before after unmatched = form := by
  have hmap : form.externalFindingBatches.map (rebaseBatch
      (rebaseLocation unmatched (before.zip after))) = form.externalFindingBatches := by
    refine (List.map_congr_left fun batch hbatch => ?_).trans (List.map_id _)
    exact rebaseBatch_eq_self (hord batch hbatch).2 fun location => rebaseLocation_same h
  unfold rebaseExternalFindingsForTopologies
  rw [hmap, List.filter_eq_self.mpr fun batch hbatch => by simpa using (hord batch hbatch).1]

/-! ## Effects -/

/-- Only controls with a node have edit state. -/
def TypedShown (form : Form) : Prop :=
  form.engine.TypedOnly form.definition.inner.ShowsControl

/-- What any call may do to a form. -/
structure Effect (form form' : Form) : Prop where
  definition : form'.definition = form.definition
  limits : form'.limits = form.limits
  externalFindingLimits : form'.externalFindingLimits = form.externalFindingLimits
  id : form'.id = form.id
  engine : form.engine.Step form.definition.inner.engine form.numbers form'.engine
  validated : form'.validation = validate form.definition form.limits form'.formData ∨
    form'.validation = form.validation ∧ jsonValuesEqual form.formData form'.formData = true
  typed : form.TypedShown → form'.TypedShown
  ordered : form.Ordered → form'.Ordered
  unchanged : form.Ordered → form'.engine.stateRevision = form.engine.stateRevision → form' = form

theorem Effect.refl (hinv : form.Inv) : form.Effect form where
  definition := rfl
  limits := rfl
  externalFindingLimits := rfl
  id := rfl
  engine := .refl hinv
  validated := .inr ⟨rfl, jsonValuesEqual_refl _⟩
  typed := fun h => h
  ordered := fun h => h
  unchanged := fun _ _ => rfl

theorem Effect.inv (h : form.Effect form') : form'.Inv := by
  unfold Inv numbers
  rw [h.definition, h.limits]
  exact h.engine.inv

theorem Effect.of_refused {α ε : Type} {r : Except ε α} (hinv : form.Inv)
    (h : Refused form form' r) : form.Effect form' := by
  rw [h.1]
  exact .refl hinv

theorem ordered_nil (h : form'.externalFindingBatches = []) : form'.Ordered := by
  simp [Ordered, h]

/-- A step of the engine that advances the state revision or does nothing. -/
theorem engine_eq (h : form.engine.Step form.definition.inner.engine form.numbers engine)
    (hs : engine.stateRevision = form.engine.stateRevision) : engine = form.engine := by
  rcases h.state with he | he
  · exact he
  · omega

theorem settle_effect (h : form.engine.Step form.definition.inner.engine form.numbers engine)
    (htyped : form.TypedShown → engine.TypedOnly form.definition.inner.ShowsControl)
    (hdata : engine.dataRevision = form.engine.dataRevision →
      jsonValuesEqual form.formData engine.formData = true) :
    form.Effect ({ form with engine }.settle form.revisions) := by
  rw [settle_eq]
  split
  · rename_i hr
    refine ⟨rfl, rfl, rfl, rfl, h, .inr ⟨rfl, hdata hr⟩, htyped, fun hord => hord,
      fun _ hs => ?_⟩
    rw [engine_eq h hs]
  · rename_i hr
    refine ⟨rfl, rfl, rfl, rfl, h, .inl rfl, htyped, fun _ => ordered_nil rfl, fun _ hs => ?_⟩
    exact absurd (congrArg Engine.Form.dataRevision (engine_eq h hs)) hr

theorem engine_effect (h : form.engine.Step form.definition.inner.engine form.numbers engine)
    (hfrom : form.engine.EditsFrom engine) (hdata : engine.formData = form.engine.formData) :
    form.Effect { form with engine } := by
  refine ⟨rfl, rfl, rfl, rfl, h, .inr ⟨rfl, ?_⟩, fun ht => ht.of_from hfrom, fun hord => hord,
    fun _ hs => ?_⟩
  · rw [formData, formData, hdata]
    exact jsonValuesEqual_refl _
  · rw [engine_eq h hs]

/-- An edit that advances the state revision for certain. -/
theorem revalidated_effect (h : form.engine.Step form.definition.inner.engine form.numbers engine)
    (hfrom : form.engine.EditsFrom engine) (hs : engine.stateRevision ≠ form.engine.stateRevision) :
    form.Effect { form with engine }.revalidate.clearExternalFindings :=
  ⟨rfl, rfl, rfl, rfl, h, .inl rfl, fun ht => ht.of_from hfrom, fun _ => ordered_nil rfl,
    fun _ he => absurd he hs⟩

theorem dataExact_equal (h : form.engine.DataExact engine)
    (hr : engine.dataRevision = form.engine.dataRevision) :
    jsonValuesEqual form.formData engine.formData = true := by
  unfold Engine.Form.DataExact at h
  rw [hr] at h
  unfold formData
  split at h
  · assumption
  · omega

/-! ## User operations -/

theorem at_unique (hinv : form.Inv) {p : Pointer} {c c' : ControlState}
    {location location' : Engine.ControlLocation} (h : form.engine.At p c location)
    (h' : form.engine.At p c' location') : location = location' ∧ c = c' := by
  by_cases hl : location = location'
  · subst hl
    exact ⟨rfl, Option.some.inj ((Engine.Form.controlState_of_at h).symm.trans
      (Engine.Form.controlState_of_at h'))⟩
  · exact absurd (hinv.shaped.bound_apart form.engine_wf h h' hl) (apart_irrefl p)

theorem inputText_textual {node : NodeView} (h : node.allowedOperations.inputText = true) :
    node.definition.semanticKind.any SemanticKind.isTextual = true := by
  unfold NodeView.allowedOperations at h
  split at h
  · cases h
  · split at h
    · unfold NodeView.arrayOperations at h
      split at h <;> cases h
    · split at h
      · cases h
      · split at h
        · cases h
        · simp only [NodeView.scalarOperations, Bool.and_eq_true] at h
          exact h.1.1

/-- The control that is typed into has a node. -/
theorem showsControl_of_node (hinv : form.Inv) {identity : InstanceIdentity} {node : NodeView}
    (h : form.node identity = some node) {p : Pointer} (hp : node.binding = some p)
    (hk : node.definition.semanticKind.any SemanticKind.isTextual = true) {c : ControlState}
    {location : Engine.ControlLocation} (hat : form.engine.At p c location) :
    form.definition.inner.ShowsControl (form.engine.owner location) c.definition := by
  obtain ⟨g, hinst, hshows⟩ := node_shows hinv.shaped h hp
  obtain ⟨_, _, _, hd, _⟩ := node_eq_some.mp h
  rw [hinst.semanticKind] at hk
  cases hshows with
  | control c' location' hfound hg =>
    obtain ⟨rfl, rfl⟩ := at_unique hinv hat hfound
    exact ⟨node.definition, List.mem_of_getElem? hd, hg ▸ hinst⟩
  | object o _ _ hg _ => rw [hg] at hk; cases hk
  | itemObject _ _ _ _ o _ _ _ _ _ hg _ => rw [hg] at hk; cases hk
  | array a _ _ hg _ => rw [hg] at hk; cases hk
  | unsupported u _ _ hg _ => rw [hg] at hk; cases hk

theorem inputText_effect (hinv : form.Inv) {target : InstanceIdentity} {text : String}
    {r : Except UserOperationError Transition} (h : form.inputText target text = (form', r)) :
    form.Effect form' := by
  rcases inputText_cases h with hr | ⟨binding, engine, ⟨hp, he⟩, rfl, _⟩
  · exact .of_refused hinv hr
  · refine settle_effect (Engine.Form.editText_step form.engine_wf hinv he)
      (fun ht => Engine.Form.editText_typed ht (fun control location hat => ?_) he)
      (dataExact_equal (Engine.Form.editText_data hinv he))
    obtain ⟨node, hnode, hallowed, hbinding⟩ := hp
    exact showsControl_of_node hinv hnode hbinding (inputText_textual hallowed) hat

theorem setValue_settle (hinv : form.Inv) {binding : Pointer} {value : Value} (hv : value.WF)
    (he : form.engine.setValue binding value = (engine, .ok ())) :
    form.Effect ({ form with engine }.settle form.revisions) :=
  settle_effect (Engine.Form.setValue_step form.engine_wf hinv hv he)
    (fun ht => ht.of_from (Engine.Form.setValue_from he))
    (dataExact_equal (Engine.Form.setValue_data form.engine_wf hinv hv he))

theorem setValue_effect (hinv : form.Inv) {target : InstanceIdentity} {value : Value}
    (hv : value.WF) {r : Except UserOperationError Transition}
    (h : form.setValue target value = (form', r)) : form.Effect form' := by
  rcases setValue_cases h with hr | ⟨binding, engine, ⟨_, he⟩, rfl, _⟩
  · exact .of_refused hinv hr
  · exact setValue_settle hinv hv he

theorem setNull_effect (hinv : form.Inv) {target : InstanceIdentity}
    {r : Except UserOperationError Transition} (h : form.setNull target = (form', r)) :
    form.Effect form' := by
  rcases setNull_cases h with hr | ⟨binding, engine, ⟨_, he⟩, rfl, _⟩
  · exact .of_refused hinv hr
  · exact setValue_settle hinv (show Value.WF .null from rfl) he

theorem blur_effect (hinv : form.Inv) {target : InstanceIdentity}
    {r : Except UserOperationError Transition} (h : form.blur target = (form', r)) :
    form.Effect form' := by
  rcases blur_cases h with hr | ⟨node, binding, engine, _, _, _, _, he, rfl, _⟩
  · exact .of_refused hinv hr
  · refine engine_effect (Engine.Form.blur_step form.engine_wf hinv he)
      (Engine.Form.blur_from he) ?_
    rcases Engine.Form.blur_cases he with ⟨rfl, _⟩ | ⟨_, _, _, _, rfl⟩ |
      ⟨_, _, _, _, _, _, ⟨_, rfl⟩ | ⟨_, rfl⟩⟩
    · rfl
    · exact Engine.Form.modifyControl_formData _ _ _
    · rfl
    · rfl

theorem structure_effect {binding : Pointer} {r : Except UserOperationError Transition}
    (h : form.StructureEdited binding engine form' r)
    (hstep : form.engine.Step form.definition.inner.engine form.numbers engine)
    (hfrom : form.engine.EditsFrom engine)
    (hdata : engine.dataRevision = form.engine.dataRevision →
      jsonValuesEqual form.formData engine.formData = true) : form.Effect form' := by
  obtain ⟨rfl, _⟩ := h
  exact settle_effect hstep (fun ht => ht.of_from hfrom) hdata

/-- Both ways of committing an edit leave the same form. -/
theorem StructureOrScalar.form_eq {target : InstanceIdentity} {binding : Pointer}
    {r : Except UserOperationError Transition}
    (h : form.StructureOrScalar target binding engine form' r) :
    form' = { form with engine }.settle form.revisions := by
  unfold StructureOrScalar at h
  split at h <;> exact h.1

/-- No control lies above the binding of a node that an operation is allowed on. -/
theorem permitted_belowNoControl (hinv : form.Inv) {target : InstanceIdentity} {binding : Pointer}
    {allowed : AllowedOperations → Bool} (hnone : allowed {} = false)
    (h : ∃ node, form.node target = some node ∧ allowed node.allowedOperations = true ∧
      node.binding = some binding) : form.engine.BelowNoControl binding ∧ binding ≠ [] := by
  obtain ⟨node, hnode, hallowed, hbinding⟩ := h
  exact belowNoControl hinv.shaped hnode hbinding (semanticKind_of_allowed hnone hallowed)

theorem removeValue_effect (hinv : form.Inv) {target : InstanceIdentity}
    {r : Except UserOperationError Transition} (h : form.removeValue target = (form', r)) :
    form.Effect form' := by
  rcases removeValue_cases h with hr | ⟨binding, engine, ⟨hp, he⟩, hs⟩
  · exact .of_refused hinv hr
  · rw [hs.form_eq]
    have hbelow := (permitted_belowNoControl hinv rfl hp).1
    exact settle_effect (Engine.Form.removeValue_step hinv hbelow he)
      (fun ht => ht.of_from (Engine.Form.removeValue_from he))
      (dataExact_equal (Engine.Form.removeValue_data hinv he))

theorem replaceStructure_dataRevision {binding : Pointer} {value : Value}
    (he : form.engine.replaceStructure binding value = (engine, .ok ())) :
    engine.dataRevision = form.engine.dataRevision + 1 := by
  rcases Engine.Form.replaceStructure_cases he with ⟨_, e, hr⟩ | ⟨_, _, _, _, _, _, rfl⟩
  · cases hr
  · rfl

theorem replaceValue_effect (hinv : form.Inv) {target : InstanceIdentity} {value : Value}
    (hv : value.WF) {r : Except UserOperationError Transition}
    (h : form.replaceValue target value = (form', r)) : form.Effect form' := by
  rcases replaceValue_cases h with hr | ⟨binding, engine, ⟨hp, he⟩, hs⟩
  · exact .of_refused hinv hr
  · rw [hs.form_eq]
    unfold replaceEdit at he
    split at he
    · obtain ⟨hbelow, hroot⟩ := permitted_belowNoControl hinv rfl hp
      refine settle_effect (Engine.Form.replaceStructure_step hinv hv hroot hbelow he)
        (fun ht => ht.of_from (Engine.Form.replaceStructure_from he)) fun hr => ?_
      have := replaceStructure_dataRevision he
      omega
    · exact setValue_settle hinv hv he

theorem materialize_effect (hinv : form.Inv) {target : InstanceIdentity}
    {r : Except UserOperationError Transition} (h : form.materialize target = (form', r)) :
    form.Effect form' := by
  rcases materialize_cases h with hr | ⟨seed, binding, engine, hseed, ⟨hp, he⟩, hs⟩
  · exact .of_refused hinv hr
  · have hbelow := (permitted_belowNoControl hinv rfl hp).1
    obtain ⟨node, hnode, hallowed, hbinding⟩ := hp
    have hwf := creationSeed_wf hinv.shaped hnode hbinding (materialize_structure hallowed) hseed
    exact structure_effect hs (Engine.Form.materializeStructure_step hinv hwf hbelow he)
      (Engine.Form.materializeStructure_from he)
      (dataExact_equal (Engine.Form.materializeStructure_data hinv hwf he))

/-! ## Array items -/

theorem items_effect {directlyChanged removed : List InstanceIdentity}
    {r : Except UserOperationError Transition} (hinv : form.Inv)
    (h : form.ItemsEdited engine directlyChanged removed form' r)
    (he : form.engine.ItemsEdited form.numbers engine) : form.Effect form' := by
  obtain ⟨rfl, _⟩ := h
  exact revalidated_effect (he.step form.engine_wf hinv) he.from he.advanced

theorem edited_of_ok {α : Type} {e : Except EditError α} {a : α} {P : Prop}
    (h : (engine = form.engine ∧ ∃ error, e = .error error) ∨ P) (he : e = .ok a) : P := by
  rcases h with ⟨_, _, hr⟩ | h
  · rw [he] at hr
    cases hr
  · exact h

theorem appendItem_effect (hinv : form.Inv) {array : InstanceIdentity}
    {r : Except UserOperationError Transition} (h : form.appendItem array = (form', r)) :
    form.Effect form' := by
  rcases appendItem_cases h with hr | ⟨binding, template, engine, item, _, ⟨_, he⟩, hs⟩
  · exact .of_refused hinv hr
  · exact items_effect hinv hs
      (edited_of_ok (Engine.Form.appendArrayItem_edited form.engine_wf hinv he) rfl)

theorem insertItemBefore_effect (hinv : form.Inv) {array : InstanceIdentity}
    {before : ItemIdentity} {r : Except UserOperationError Transition}
    (h : form.insertItemBefore array before = (form', r)) : form.Effect form' := by
  rcases insertItemBefore_cases h with hr | ⟨binding, template, engine, item, _, _, ⟨_, he⟩, hs⟩
  · exact .of_refused hinv hr
  · exact items_effect hinv hs
      (edited_of_ok (Engine.Form.insertArrayItemBefore_edited form.engine_wf hinv he) rfl)

theorem removeItem_effect (hinv : form.Inv) {array : InstanceIdentity} {item : ItemIdentity}
    {r : Except UserOperationError Transition} (h : form.removeItem array item = (form', r)) :
    form.Effect form' := by
  rcases removeItem_cases h with hr | ⟨binding, template, engine, removed, _, _, ⟨_, he⟩, hs⟩
  · exact .of_refused hinv hr
  · exact items_effect hinv hs (edited_of_ok (Engine.Form.removeArrayItem_edited hinv he) rfl)

theorem moveArrayItem_revisions {direction : Engine.ArrayMove} {binding : Pointer} {identity : Nat}
    {moved : Engine.MovedArrayItem}
    (h : Engine.Form.moveArrayItem direction form.engine binding identity = (engine, .ok moved)) :
    engine.dataRevision = form.engine.dataRevision + (if moved.dataChanged then 1 else 0) ∧
    engine.stateRevision = form.engine.stateRevision + 1 := by
  rcases Engine.Form.moveArrayItem_cases h with
    ⟨_, _, hr⟩ | ⟨_, _, _, _, _, _, _, dataChanged, _, _, _, _, hr, _, _, rfl⟩
  · cases hr
  · cases hr
    cases dataChanged <;> exact ⟨rfl, rfl⟩

theorem moveItem_effect (hinv : form.Inv) {direction : Engine.ArrayMove} {array : InstanceIdentity}
    {item : ItemIdentity} {r : Except UserOperationError Transition}
    (h : form.moveItem direction array item = (form', r)) : form.Effect form' := by
  rcases moveItem_cases h with
    hr | ⟨binding, template, engine, moved, _, _, ⟨_, he⟩, rfl, _⟩
  · exact .of_refused hinv hr
  · have hedited := edited_of_ok (Engine.Form.moveArrayItem_edited hinv he) rfl
    have hstep := hedited.step form.engine_wf hinv
    obtain ⟨hdata, hstate⟩ := moveArrayItem_revisions he
    have hadvanced : engine.stateRevision ≠ form.engine.stateRevision := by omega
    split
    · exact revalidated_effect hstep hedited.from hadvanced
    · rename_i hc
      rw [if_neg hc] at hdata
      refine ⟨rfl, rfl, rfl, rfl, hstep, .inr ⟨rfl, dataExact_equal hedited.data hdata⟩,
        fun ht => ht.of_from hedited.from, fun hord => ?_, fun _ hs => absurd hs hadvanced⟩
      have hord : ({ form with engine } : Form).Ordered := hord
      exact moveExternalFindings_ordered hord _ _ _

theorem toggleChoice_effect (hinv : form.Inv) {array : InstanceIdentity} {value : Value}
    {r : Except UserOperationError Transition} (h : form.toggleChoice array value = (form', r)) :
    form.Effect form' := by
  rcases toggleChoice_cases h with hr | ⟨binding, template, engine, toggled, _, ⟨_, he⟩, hs⟩
  · exact .of_refused hinv hr
  · exact items_effect hinv hs
      (edited_of_ok (Engine.Form.toggleArrayChoice_edited form.engine_wf hinv he) rfl)

/-! ## The whole form -/

theorem reset_eq (form : Form) : form.reset.1 =
    if form.engine.reset.dataRevision = form.engine.dataRevision then
      { form with engine := form.engine.reset }.rebaseExternalFindingsForTopologies
        form.hostArrayTopologies { form with engine := form.engine.reset }.hostArrayTopologies
        .preserve
    else { form with engine := form.engine.reset }.revalidate.clearExternalFindings := by
  by_cases h : form.engine.reset.dataRevision = form.engine.dataRevision
  · simp [reset, revalidateIfDataChanged, revisions, dataRevision, h]
  · simp [reset, revalidateIfDataChanged, revisions, dataRevision, revalidate, h, Ne.symm h]

theorem items_nodup {definition : Engine.FormDefinition} {numbers : Engine.NumberInput}
    (hinv : form.engine.Inv definition numbers) {a : Engine.ArrayState}
    (ha : a ∈ form.engine.arrays) :
    (a.identities.map Engine.HostArrayItem.existing).Nodup :=
  (hinv.identities_nodup a ha).map fun _ _ h => by cases h; rfl

theorem reset_effect (hinv : form.Inv) : form.Effect form.reset.1 := by
  have hstep := Engine.Form.reset_step hinv
  have htyped (ht : form.TypedShown) := ht.of_from (Engine.Form.reset_from form.engine)
  rw [reset_eq]
  split
  · rename_i hc
    refine ⟨rfl, rfl, rfl, rfl, hstep,
      .inr ⟨rfl, dataExact_equal (Engine.Form.reset_data form.engine) hc⟩, htyped,
      fun _ => rebaseForTopologies_ordered _ _ _ _, fun hord hs => ?_⟩
    have hsame : ({ form with engine := form.engine.reset } : Form) = form := by
      rw [engine_eq hstep hs]
    rw [hsame]
    refine rebaseForTopologies_same hord (fun t ht => ?_) _
    rw [hostArrayTopologies_eq form.engine_wf hinv.shaped] at ht
    obtain ⟨i, hi, rfl⟩ := List.mem_iff_getElem.mp ht
    rw [List.getElem_zip, List.getElem_map]
    exact ⟨rfl, items_nodup hinv (List.getElem_mem _)⟩
  · rename_i hc
    refine ⟨rfl, rfl, rfl, rfl, hstep, .inl rfl, htyped, fun _ => ordered_nil rfl,
      fun _ hs => ?_⟩
    exact absurd (congrArg Engine.Form.dataRevision (engine_eq hstep hs)) hc

theorem reinitialize_effect (hinv : form.Inv) {formData : Value} (hwf : formData.WF)
    {r : Except ReinitializeError Transition} (h : form.reinitialize formData = (form', r)) :
    form.Effect form' := by
  rcases reinitialize_cases h with hr | ⟨engine, he, rfl, _⟩
  · exact .of_refused hinv hr
  · refine ⟨rfl, rfl, rfl, rfl, Engine.Form.reinitialize_step hinv hwf he, .inl rfl,
      fun ht => ht.of_from (Engine.Form.reinitialize_from he), fun _ => ordered_nil rfl,
      fun _ hs => ?_⟩
    rcases Engine.Form.reinitialize_cases he with ⟨_, _, hr⟩ | ⟨_, _, rfl⟩
    · cases hr
    · exact absurd hs (Nat.succ_ne_self _)

theorem markStateChanged_step (hinv : form.Inv) :
    form.engine.Step form.definition.inner.engine form.numbers form.engine.markStateChanged :=
  ⟨hinv.of_eq rfl rfl rfl rfl rfl rfl hinv.batches, .refl hinv.pool, .inr rfl⟩

/-- Facade state replaced, the state revision advanced. -/
theorem marked_effect (hinv : form.Inv) (findingVisibility : FindingVisibilityPolicy)
    (readOnly : Bool) (externalFindingBatches : List ExternalFindingBatch)
    (hord : form.Ordered → { form with externalFindingBatches }.Ordered) :
    form.Effect
      { form with findingVisibility, readOnly, externalFindingBatches }.markStateChanged :=
  ⟨rfl, rfl, rfl, rfl, markStateChanged_step hinv, .inr ⟨rfl, jsonValuesEqual_refl _⟩,
    fun ht => ⟨ht.controls, ht.items⟩, hord, fun _ hs => absurd hs (Nat.succ_ne_self _)⟩

theorem setFindingVisibility_effect (hinv : form.Inv) (policy : FindingVisibilityPolicy) :
    form.Effect (form.setFindingVisibility policy).1 := by
  unfold setFindingVisibility
  dsimp only
  split
  · exact marked_effect hinv policy form.readOnly _ fun hord => hord
  · exact .refl hinv

theorem setReadOnly_effect (hinv : form.Inv) (readOnly : Bool) :
    form.Effect (form.setReadOnly readOnly).1 := by
  unfold setReadOnly
  dsimp only
  split
  · exact marked_effect hinv form.findingVisibility readOnly _ fun hord => hord
  · exact .refl hinv

theorem prepareSubmission_effect (hinv : form.Inv) :
    form.Effect { form with engine := form.engine.prepareSubmission.1 } :=
  engine_effect (Engine.Form.prepareSubmission_step hinv)
    (Engine.Form.prepareSubmission_from form.engine) rfl

/-! ## External findings -/

/-- What a batch has passed before it is stored. -/
structure Accepted (form : Form) (batch stored : ExternalFindingBatch) : Prop where
  revision : batch.revision = form.dataRevision
  stored_eq : stored = { batch with
    findings := dedupFindings (sortExternalFindings batch.findings) }
  count : ((retainedBatches form.externalFindingBatches batch.source).map
    (·.findings.length)).sum + stored.findings.length ≤
      form.externalFindingLimits.maxActiveFindings
  bytes : ∃ incoming retained,
    activeExternalFindingBatchBytes stored form.externalFindingLimits.maxActiveBytes =
      .ok incoming ∧
    retainedBytes form.externalFindingLimits.maxActiveBytes
      (retainedBatches form.externalFindingBatches batch.source) = some retained ∧
    retained + incoming ≤ form.externalFindingLimits.maxActiveBytes

theorem checkExternalFindings_accepted {batch stored : ExternalFindingBatch}
    (h : form.checkExternalFindings batch = .ok stored) : form.Accepted batch stored := by
  unfold checkExternalFindings at h
  dsimp only at h
  split at h
  · cases h
  rename_i hrevision
  split at h
  · cases h
  obtain ⟨_, _, h⟩ := bind_eq_ok.mp h
  split at h
  · cases h
  split at h
  · cases h
  rename_i hcount
  split at h
  · cases h
  rename_i incoming hincoming
  split at h
  · cases h
  rename_i retained hretained
  split at h
  · cases h
  rename_i hbytes
  cases h
  exact ⟨not_not.mp hrevision, rfl, Nat.le_of_not_gt hcount, incoming, retained, hincoming,
    hretained, Nat.le_of_not_gt hbytes⟩

theorem Accepted.sorted {batch stored : ExternalFindingBatch} (h : form.Accepted batch stored) :
    stored.findings.Pairwise fun left right => (compareExternalFindings left right).isLE = true := by
  rw [h.stored_eq]
  exact (sortExternalFindings_pairwise _).sublist (List.destutter_sublist _ _)

/-- A batch that changes nothing was stored before; else it is filed under its source or its
source is dropped. -/
theorem replaceBatch_cases (batches : List ExternalFindingBatch) (batch : ExternalFindingBatch) :
    replaceBatch batches batch = (batches, false) ∨
    (replaceBatch batches batch).2 = true ∧ ∀ b ∈ (replaceBatch batches batch).1,
      b ∈ batches ∨ b = batch ∧ batch.findings ≠ [] := by
  unfold replaceBatch
  split
  · split
    · exact .inr ⟨rfl, fun b hb => .inl (List.mem_of_mem_eraseIdx hb)⟩
    · rename_i hempty
      split
      · exact .inl rfl
      · refine .inr ⟨rfl, fun b hb => ?_⟩
        rcases List.mem_or_eq_of_mem_set hb with hb | rfl
        · exact .inl hb
        · exact .inr ⟨rfl, by simpa using hempty⟩
  · split
    · exact .inl rfl
    · rename_i hempty
      refine .inr ⟨rfl, fun b hb => ?_⟩
      have hb := (List.perm_insertionSort _ _).subset hb
      rcases List.mem_append.mp hb with hb | hb
      · exact .inl hb
      · obtain rfl := List.mem_singleton.mp hb
        exact .inr ⟨rfl, by simpa using hempty⟩

theorem applyExternalFindings_effect (hinv : form.Inv) {batch : ExternalFindingBatch}
    {r : Except (Failure ExternalFindingError) Transition}
    (h : form.applyExternalFindings batch = (form', r)) : form.Effect form' := by
  rcases applyExternalFindings_cases h with hr | ⟨stored, hc, rfl, _⟩
  · exact .of_refused hinv hr
  · have hsorted := (checkExternalFindings_accepted hc).sorted
    unfold withBatch
    rcases replaceBatch_cases form.externalFindingBatches stored with he | ⟨he, hmem⟩
    · rw [he]
      exact .refl hinv
    · dsimp only
      rw [he]
      refine marked_effect hinv form.findingVisibility form.readOnly _ fun hord b hb => ?_
      rcases hmem b hb with hb | ⟨rfl, hne⟩
      · exact hord b hb
      · exact ⟨hne, hsorted⟩

/-! ## Host transactions -/

/-- Topologies that the engine sees no change in. -/
theorem topologies_same (hinv : form.Inv) {topologies : List HostArrayTopology}
    (h : (form.engine.arrays.zip (topologies.map hostArrayChange)).any
      Engine.Form.changesTopology = false) :
    ∀ t ∈ form.hostArrayTopologies.zip topologies, t.1.items = t.2.items ∧ t.2.items.Nodup := by
  intro t ht
  rw [hostArrayTopologies_eq form.engine_wf hinv.shaped] at ht
  obtain ⟨i, hi, rfl⟩ := List.mem_iff_getElem.mp ht
  simp only [List.getElem_zip, List.getElem_map]
  simp only [List.length_zip, List.length_map, lt_min_iff] at hi
  obtain ⟨hia, hit⟩ := hi
  have hmem : (form.engine.arrays[i], hostArrayChange topologies[i]) ∈
      form.engine.arrays.zip (topologies.map hostArrayChange) := by
    refine List.mem_iff_getElem.mpr ⟨i, by simpa using ⟨hia, hit⟩, ?_⟩
    rw [List.getElem_zip, List.getElem_map]
  have hsame := List.any_eq_false.mp h _ hmem
  unfold hostArrayChange at hsame
  split at hsame
  · exact absurd rfl hsame
  · have heq : form.engine.arrays[i].identities.map Engine.HostArrayItem.existing =
        topologies[i].items := by
      simpa [Engine.Form.changesTopology, Engine.Form.sameTopology] using hsame
    exact ⟨heq, heq ▸ items_nodup hinv (List.getElem_mem _)⟩

theorem hostCommitted_effect (hinv : form.Inv) {operations : List HostOperation}
    (hwf : ∀ o ∈ operations, o.WF) {candidate : Value}
    (hc : form.hostCandidate (form.queued operations) = .ok candidate)
    (he : form.engine.applyHostTransaction candidate (form.queued operations).writes
      ((form.queued operations).arrayTopologies.map hostArrayChange)
      (form.queued operations).itemWrites = (engine, .ok ())) :
    form.Effect (form.hostCommitted (form.queued operations) candidate engine) := by
  obtain ⟨hcwf, _, hw⟩ := queued_candidate hinv hwf hc
  have hstep := Engine.Form.applyHostTransaction_step hinv hcwf hw he
  have hdata := Engine.Form.applyHostTransaction_data hinv hw he
  have htyped (ht : form.TypedShown) :=
    ht.of_from (Engine.Form.applyHostTransaction_from hinv hw.found he)
  have hcases := Engine.Form.applyHostTransaction_cases hinv.identities_nodup hw.found he
  unfold hostCommitted
  split
  · rename_i heq
    have hformData : engine.formData = form.engine.formData := by
      rcases hcases with ⟨_, _, hr⟩ | ⟨_, _, _, _, _, rfl, _⟩
      · cases hr
      · exact if_pos heq
    refine ⟨rfl, rfl, rfl, rfl, hstep, .inr ⟨rfl, ?_⟩, htyped,
      fun _ => rebaseForTopologies_ordered _ _ _ _, fun hord hs => ?_⟩
    · have hrefl := jsonValuesEqual_refl form.engine.formData
      exact (congrArg (jsonValuesEqual form.engine.formData) hformData).trans hrefl
    · have hsame : (form.engine.arrays.zip ((form.queued operations).arrayTopologies.map
          hostArrayChange)).any Engine.Form.changesTopology = false := by
        rcases hcases with ⟨_, _, hr⟩ | ⟨_, _, _, _, stateChanged, rfl, hsame⟩
        · cases hr
        · cases stateChanged with
          | false => exact (hsame rfl).1
          | true =>
            cases hd : !jsonValuesEqual form.engine.formData candidate <;> rw [hd] at hs <;>
              exact absurd hs (Nat.succ_ne_self _)
      have heng : ({ form with engine } : Form) = form := by rw [engine_eq hstep hs]
      rw [heng]
      exact rebaseForTopologies_same hord (topologies_same hinv hsame) _
  · rename_i hne
    have hcommitted : engine.formData = candidate ∧
        engine.stateRevision = form.engine.stateRevision + 1 := by
      rcases hcases with ⟨_, _, hr⟩ | ⟨_, _, _, _, stateChanged, rfl, _⟩
      · cases hr
      · refine ⟨if_neg hne, ?_⟩
        have hd : jsonValuesEqual form.engine.formData candidate = false :=
          Bool.eq_false_iff.mpr hne
        rw [hd]
        rfl
    refine ⟨rfl, rfl, rfl, rfl, hstep, .inl ?_, htyped, fun _ => ordered_nil rfl, fun _ hs => ?_⟩
    · exact congrArg (validate form.definition form.limits) hcommitted.1.symm
    · exact absurd (hs.symm.trans hcommitted.2) (Nat.succ_ne_self _).symm

theorem transact_effect (hinv : form.Inv) {operations : List HostOperation}
    (hwf : ∀ o ∈ operations, o.WF) {r : Except HostCommitError Transition}
    (h : form.transact operations = (form', r)) : form.Effect form' := by
  rcases transact_cases hinv hwf h with hr | ⟨candidate, engine, hc, he, rfl, _⟩
  · exact .of_refused hinv hr
  · exact hostCommitted_effect hinv hwf hc he

theorem tryTransact_effect (hinv : form.Inv) {ε : Type} {operations : List HostOperation}
    (hwf : ∀ o ∈ operations, o.WF) {closure : Except ε Unit}
    {r : Except (TransactionError ε) Transition}
    (h : form.tryTransact operations closure = (form', r)) : form.Effect form' := by
  rcases tryTransact_cases hinv hwf h with hr | ⟨candidate, engine, _, hc, he, rfl, _⟩
  · exact .of_refused hinv hr
  · exact hostCommitted_effect hinv hwf hc he

/-! ## Every operation -/

theorem step_effect (hinv : form.Inv) (operation : WellFormedOperation) :
    form.Effect (form.step operation.1).1 := by
  obtain ⟨operation, hwf⟩ := operation
  cases operation with
  | inputText target text => exact inputText_effect hinv rfl
  | blur target => exact blur_effect hinv rfl
  | setValue target value => exact setValue_effect hinv hwf rfl
  | setNull target => exact setNull_effect hinv rfl
  | removeValue target => exact removeValue_effect hinv rfl
  | replaceValue target value => exact replaceValue_effect hinv hwf rfl
  | materialize target => exact materialize_effect hinv rfl
  | appendItem array => exact appendItem_effect hinv rfl
  | insertItemBefore array before => exact insertItemBefore_effect hinv rfl
  | removeItem array item => exact removeItem_effect hinv rfl
  | moveItem direction array item => exact moveItem_effect hinv rfl
  | toggleChoice array value => exact toggleChoice_effect hinv rfl
  | transact operations => exact transact_effect hinv hwf rfl
  | tryTransact operations closure => exact tryTransact_effect hinv hwf rfl
  | applyExternalFindings batch => exact applyExternalFindings_effect hinv rfl
  | reset => exact reset_effect hinv
  | setFindingVisibility policy => exact setFindingVisibility_effect hinv policy
  | setReadOnly readOnly => exact setReadOnly_effect hinv readOnly
  | reinitialize formData => exact reinitialize_effect hinv hwf rfl
  | prepareSubmission =>
    exact (prepareSubmission_form form).symm ▸ prepareSubmission_effect hinv
  | prepareAdvisorySubmission =>
    exact (prepareAdvisorySubmission_form form).symm ▸ prepareSubmission_effect hinv

end Form

end Schemaform
