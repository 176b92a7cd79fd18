import Schemaform.Form.Atomicity
import Schemaform.Form.Topology

/-!
# Form.Report

What a transition tells a reader that has kept what it read before.

* `Stamped`: the revisions it carries are the form's, before and after.
* `step_reports`: every operation's transition is stamped and names the nodes that come and go.
* `ListsDifferences`: it lists the nodes whose observation differs and no other.
* `transitions_chain`: the transitions of a run follow one another without a gap.
-/

namespace Schemaform

/-- Operations that compare every observation before and after. -/
def Operation.observesAll : Operation → Bool
  | .reset | .setFindingVisibility _ | .setReadOnly _ | Operation.reinitialize _
  | .prepareSubmission | .prepareAdvisorySubmission => true
  | _ => false

def Transition.isEmpty (t : Transition) : Bool :=
  decide (t.beforeData = t.afterData) && decide (t.beforeState = t.afterState) &&
    t.changed.isEmpty && t.removed.isEmpty

namespace Form

variable {form form' : Form} {t : Transition}

structure Stamped (form form' : Form) (t : Transition) : Prop where
  before : (t.beforeData, t.beforeState) = form.revisions
  after : (t.afterData, t.afterState) = form'.revisions

/-! ## Three kinds of transition -/

theorem transition_stamped (form form' : Form) (changed : List InstanceIdentity) :
    form.Stamped form' (transition form.revisions form'.revisions changed) := ⟨rfl, rfl⟩

theorem topologyTransition_stamped (form form' : Form) (changed : List InstanceIdentity) :
    form.Stamped form' (form'.topologyTransition form.revisions form'.revisions
      form.instanceIdentities changed) := ⟨rfl, rfl⟩

theorem ScalarEdited.stamped {target : InstanceIdentity} {engine : Engine.Form}
    (h : form.ScalarEdited target engine form' (.ok t)) : form.Stamped form' t := by
  obtain ⟨-, ht⟩ := h
  cases ht
  exact ⟨rfl, rfl⟩

theorem StructureEdited.stamped {binding : Pointer} {engine : Engine.Form}
    (h : form.StructureEdited binding engine form' (.ok t)) : form.Stamped form' t := by
  obtain ⟨-, ht⟩ := h
  cases ht
  exact ⟨rfl, rfl⟩

theorem StructureOrScalar.stamped {target : InstanceIdentity} {binding : Pointer}
    {engine : Engine.Form} (h : form.StructureOrScalar target binding engine form' (.ok t)) :
    form.Stamped form' t := by
  unfold StructureOrScalar at h
  split at h
  · exact StructureEdited.stamped h
  · exact ScalarEdited.stamped h

theorem ItemsEdited.stamped {engine : Engine.Form}
    {directlyChanged removed : List InstanceIdentity}
    (h : form.ItemsEdited engine directlyChanged removed form' (.ok t)) :
    form.Stamped form' t := by
  obtain ⟨-, ht⟩ := h
  cases ht
  exact ⟨rfl, rfl⟩

/-! ## Every operation -/

theorem refused_reports {ε : Type} {P : Prop}
    (h : Refused form form' (Except.ok t : Except ε Transition)) : P := by
  obtain ⟨-, e, he⟩ := h
  cases he

structure Reports (form form' : Form) (t : Transition) : Prop where
  stamped : form.Stamped form' t
  topology : form.ExactTopology form' t

theorem inputText_reports (hinv : form.Inv) {target : InstanceIdentity} {text : String}
    (h : form.inputText target text = (form', .ok t)) : form.Reports form' t := by
  refine ⟨?_, inputText_exact hinv h⟩
  rcases inputText_cases h with hr | ⟨_, _, _, hs⟩
  · exact refused_reports hr
  · exact hs.stamped

theorem blur_reports {target : InstanceIdentity} (h : form.blur target = (form', .ok t)) :
    form.Reports form' t := by
  refine ⟨?_, blur_exact h⟩
  rcases blur_cases h with hr | ⟨_, _, _, _, _, _, _, _, _, ht⟩
  · exact refused_reports hr
  · cases ht
    exact transition_stamped form form' _

theorem setValue_reports (hinv : form.Inv) {target : InstanceIdentity} {value : Value}
    (h : form.setValue target value = (form', .ok t)) : form.Reports form' t := by
  refine ⟨?_, setValue_exact hinv h⟩
  rcases setValue_cases h with hr | ⟨_, _, _, hs⟩
  · exact refused_reports hr
  · exact hs.stamped

theorem setNull_reports (hinv : form.Inv) {target : InstanceIdentity}
    (h : form.setNull target = (form', .ok t)) : form.Reports form' t := by
  refine ⟨?_, setNull_exact hinv h⟩
  rcases setNull_cases h with hr | ⟨_, _, _, hs⟩
  · exact refused_reports hr
  · exact hs.stamped

theorem removeValue_reports (hinv : form.Inv) {target : InstanceIdentity}
    (h : form.removeValue target = (form', .ok t)) : form.Reports form' t := by
  refine ⟨?_, removeValue_exact hinv h⟩
  rcases removeValue_cases h with hr | ⟨_, _, _, hs⟩
  · exact refused_reports hr
  · exact hs.stamped

theorem replaceValue_reports (hinv : form.Inv) {target : InstanceIdentity} {value : Value}
    (hwf : value.WF) (h : form.replaceValue target value = (form', .ok t)) :
    form.Reports form' t := by
  refine ⟨?_, replaceValue_exact hinv hwf h⟩
  rcases replaceValue_cases h with hr | ⟨_, _, _, hs⟩
  · exact refused_reports hr
  · exact hs.stamped

theorem materialize_reports (hinv : form.Inv) {target : InstanceIdentity}
    (h : form.materialize target = (form', .ok t)) : form.Reports form' t := by
  refine ⟨?_, materialize_exact hinv h⟩
  rcases materialize_cases h with hr | ⟨_, _, _, _, _, hs⟩
  · exact refused_reports hr
  · exact hs.stamped

theorem appendItem_reports (hinv : form.Inv) {array : InstanceIdentity}
    (h : form.appendItem array = (form', .ok t)) : form.Reports form' t := by
  refine ⟨?_, appendItem_exact hinv h⟩
  rcases appendItem_cases h with hr | ⟨_, _, _, _, _, _, hs⟩
  · exact refused_reports hr
  · exact hs.stamped

theorem insertItemBefore_reports (hinv : form.Inv) {array : InstanceIdentity}
    {before : ItemIdentity} (h : form.insertItemBefore array before = (form', .ok t)) :
    form.Reports form' t := by
  refine ⟨?_, insertItemBefore_exact hinv h⟩
  rcases insertItemBefore_cases h with hr | ⟨_, _, _, _, _, _, _, hs⟩
  · exact refused_reports hr
  · exact hs.stamped

theorem removeItem_reports (hinv : form.Inv) {array : InstanceIdentity} {item : ItemIdentity}
    (h : form.removeItem array item = (form', .ok t)) : form.Reports form' t := by
  refine ⟨?_, removeItem_exact hinv h⟩
  rcases removeItem_cases h with hr | ⟨_, _, _, _, _, _, _, hs⟩
  · exact refused_reports hr
  · exact hs.stamped

theorem moveItem_reports (hinv : form.Inv) {direction : Engine.ArrayMove}
    {array : InstanceIdentity} {item : ItemIdentity}
    (h : form.moveItem direction array item = (form', .ok t)) : form.Reports form' t := by
  refine ⟨?_, moveItem_exact hinv h⟩
  rcases moveItem_cases h with hr | ⟨_, _, _, _, _, _, _, _, ht⟩
  · exact refused_reports hr
  · cases ht
    exact ⟨rfl, rfl⟩

theorem toggleChoice_reports (hinv : form.Inv) {array : InstanceIdentity} {value : Value}
    (h : form.toggleChoice array value = (form', .ok t)) : form.Reports form' t := by
  refine ⟨?_, toggleChoice_exact hinv h⟩
  rcases toggleChoice_cases h with hr | ⟨_, _, _, _, _, _, hs⟩
  · exact refused_reports hr
  · exact hs.stamped

theorem transact_reports (hinv : form.Inv) {operations : List HostOperation}
    (hwf : ∀ o ∈ operations, o.WF) (h : form.transact operations = (form', .ok t)) :
    form.Reports form' t := by
  refine ⟨?_, transact_exact hinv hwf h⟩
  rcases transact_cases hinv hwf h with hr | ⟨_, _, _, _, _, ht⟩
  · exact refused_reports hr
  · cases ht
    exact topologyTransition_stamped form form' _

theorem tryTransact_reports (hinv : form.Inv) {operations : List HostOperation}
    (hwf : ∀ o ∈ operations, o.WF) {closure : Except Unit Unit}
    (h : form.tryTransact operations closure = (form', .ok t)) : form.Reports form' t := by
  refine ⟨?_, tryTransact_exact hinv hwf h⟩
  rcases tryTransact_cases hinv hwf h with hr | ⟨_, _, _, _, _, _, ht⟩
  · exact refused_reports hr
  · cases ht
    exact topologyTransition_stamped form form' _

theorem applyExternalFindings_reports (hinv : form.Inv) {batch : ExternalFindingBatch}
    (h : form.applyExternalFindings batch = (form', .ok t)) : form.Reports form' t := by
  refine ⟨?_, applyExternalFindings_exact hinv h⟩
  rcases applyExternalFindings_cases h with hr | ⟨_, _, _, ht⟩
  · exact refused_reports hr
  · cases ht
    exact transition_stamped form form' _

theorem reinitialize_reports (hinv : form.Inv) {formData : Value} (hwf : formData.WF)
    (h : form.reinitialize formData = (form', .ok t)) : form.Reports form' t := by
  refine ⟨?_, reinitialize_exact hinv hwf h⟩
  rcases reinitialize_cases h with hr | ⟨_, _, _, ht⟩
  · exact refused_reports hr
  · cases ht
    exact topologyTransition_stamped form form' _

theorem submitted_reports (hinv : form.Inv) : form.Reports form.submitted
    (transition form.revisions form.submitted.revisions
      (form.submitted.changedNodes form.nodeObservations)) :=
  ⟨transition_stamped form form.submitted _, submitted_exact hinv⟩

theorem step_reports (hinv : form.Inv) (ht : form.TypedShown) (operation : WellFormedOperation)
    (h : (form.step operation.1).2 = .ok t) : form.Reports (form.step operation.1).1 t := by
  obtain ⟨operation, hwf⟩ := operation
  cases operation with
  | inputText target text => exact inputText_reports hinv (outcome_ok h)
  | blur target => exact blur_reports (outcome_ok h)
  | setValue target value => exact setValue_reports hinv (outcome_ok h)
  | setNull target => exact setNull_reports hinv (outcome_ok h)
  | removeValue target => exact removeValue_reports hinv (outcome_ok h)
  | replaceValue target value => exact replaceValue_reports hinv hwf (outcome_ok h)
  | materialize target => exact materialize_reports hinv (outcome_ok h)
  | appendItem array => exact appendItem_reports hinv (outcome_ok h)
  | insertItemBefore array before => exact insertItemBefore_reports hinv (outcome_ok h)
  | removeItem array item => exact removeItem_reports hinv (outcome_ok h)
  | moveItem direction array item => exact moveItem_reports hinv (outcome_ok h)
  | toggleChoice array value => exact toggleChoice_reports hinv (outcome_ok h)
  | transact operations => exact transact_reports hinv hwf (outcome_ok h)
  | tryTransact operations closure => exact tryTransact_reports hinv hwf (outcome_ok h)
  | applyExternalFindings batch => exact applyExternalFindings_reports hinv (outcome_ok h)
  | reset =>
    cases h
    exact ⟨topologyTransition_stamped form form.reset.1 _, reset_exact hinv⟩
  | setFindingVisibility policy =>
    cases h
    exact ⟨transition_stamped form (form.setFindingVisibility policy).1 _,
      setFindingVisibility_exact hinv policy⟩
  | setReadOnly readOnly =>
    cases h
    exact ⟨transition_stamped form (form.setReadOnly readOnly).1 _, setReadOnly_exact hinv readOnly⟩
  | reinitialize formData => exact reinitialize_reports hinv hwf (outcome_ok h)
  | prepareSubmission =>
    rw [step, prepareSubmission_eq hinv ht] at h ⊢
    cases h
    exact submitted_reports hinv
  | prepareAdvisorySubmission =>
    rw [step, prepareAdvisorySubmission_eq hinv ht] at h ⊢
    cases h
    exact submitted_reports hinv

theorem reachable_reports (h : formSystem.Reachable form) (operation : WellFormedOperation)
    (hok : (form.step operation.1).2 = .ok t) : form.Reports (form.step operation.1).1 t :=
  step_reports (reachable_inv h) (reachable_typedShown h) operation hok

/-! ## Observations compared -/

theorem lookup_filterMap_pair {α β : Type} [DecidableEq α] (f : α → Option β) (key : α)
    (l : List α) : (l.filterMap fun a => (f a).map (a, ·)).lookup key =
      if key ∈ l then f key else none := by
  induction l with
  | nil => rfl
  | cons a l ih =>
    by_cases hk : key = a
    · subst hk
      cases hf : f key with
      | none => simp [hf, ih]
      | some b => simp [hf]
    · have hbeq : (key == a) = false := beq_eq_false_iff_ne.mpr hk
      cases hf : f a with
      | none => simp [hf, ih, hk]
      | some b =>
        simp only [List.filterMap_cons, hf, Option.map_some, List.mem_cons, hk, false_or]
        rw [List.lookup_cons, hbeq]
        exact ih

theorem nodeObservation_isSome {identity : InstanceIdentity} :
    (form.nodeObservation identity).isSome = (form.node identity).isSome := by
  simp [nodeObservation]

theorem lookup_nodeObservations (hinv : form.Inv) (identity : InstanceIdentity) :
    form.nodeObservations.lookup identity = form.nodeObservation identity := by
  rw [nodeObservations, lookup_filterMap_pair]
  split
  · rfl
  · rename_i hmem
    rw [mem_instanceIdentities hinv, ← nodeObservation_isSome, Option.not_isSome_iff_eq_none] at hmem
    exact hmem.symm

/-- Exactly the nodes that are there and show something else than before are listed. -/
def ListsDifferences (form form' : Form) (t : Transition) : Prop :=
  ∀ identity, identity ∈ t.changed ↔ (form'.node identity).isSome ∧
    form'.nodeObservation identity ≠ form.nodeObservation identity

theorem mem_changedNodes (hinv : form.Inv) (hinv' : form'.Inv) {identity : InstanceIdentity} :
    identity ∈ form'.changedNodes form.nodeObservations ↔ (form'.node identity).isSome ∧
      form'.nodeObservation identity ≠ form.nodeObservation identity := by
  simp only [changedNodes, List.mem_filter, mem_instanceIdentities hinv',
    lookup_nodeObservations hinv]
  refine and_congr_right fun hnode => ?_
  rw [← nodeObservation_isSome, Option.isSome_iff_exists] at hnode
  obtain ⟨after, hafter⟩ := hnode
  rw [hafter, Option.any_some, bne_iff_ne]
  exact ne_comm

theorem transition_differences (hinv : form.Inv) (hinv' : form'.Inv) (before after : Revisions) :
    form.ListsDifferences form'
      (transition before after (form'.changedNodes form.nodeObservations)) :=
  fun _ => mem_changedNodes hinv hinv'

theorem topologyTransition_differences (hinv : form.Inv) (hinv' : form'.Inv)
    (before after : Revisions) : form.ListsDifferences form'
      (form'.topologyTransition before after form.instanceIdentities
        (form'.changedNodes form.nodeObservations)) := by
  intro identity
  simp only [topologyTransition, List.mem_eraseDups, List.mem_filter, List.mem_append,
    mem_changedNodes hinv hinv', List.contains_eq_mem, decide_eq_true_eq, Bool.not_eq_true',
    decide_eq_false_iff_not, mem_instanceIdentities hinv, mem_instanceIdentities hinv']
  constructor
  · rintro ⟨hlisted | ⟨hnode, hnew⟩, -⟩
    · exact hlisted
    · refine ⟨hnode, fun heq => hnew ?_⟩
      rw [← nodeObservation_isSome, ← heq, nodeObservation_isSome]
      exact hnode
  · intro h
    exact ⟨.inl h, h.1⟩

theorem step_differences (hinv : form.Inv) (ht : form.TypedShown) (operation : WellFormedOperation)
    (hall : operation.1.observesAll = true) (hok : (form.step operation.1).2 = .ok t) :
    form.ListsDifferences (form.step operation.1).1 t := by
  have hinv' := (step_effect hinv operation).inv
  obtain ⟨operation, hwf⟩ := operation
  cases operation with
  | reset =>
    cases hok
    exact topologyTransition_differences hinv hinv' _ _
  | setFindingVisibility policy =>
    cases hok
    exact transition_differences hinv hinv' _ _
  | setReadOnly readOnly =>
    cases hok
    exact transition_differences hinv hinv' _ _
  | reinitialize formData =>
    rcases reinitialize_cases (outcome_ok hok) with hr | ⟨_, _, _, hr⟩
    · exact refused_reports hr
    · cases hr
      exact topologyTransition_differences hinv hinv' _ _
  | prepareSubmission =>
    simp only [step, prepareSubmission_eq hinv ht] at hok hinv' ⊢
    cases hok
    exact transition_differences hinv hinv' _ _
  | prepareAdvisorySubmission =>
    simp only [step, prepareAdvisorySubmission_eq hinv ht] at hok hinv' ⊢
    cases hok
    exact transition_differences hinv hinv' _ _
  | _ => cases hall

/-- A node that an operation on the whole form does not list shows what it showed before, and one
that it lists shows something else. -/
theorem whole_form_differences (h : formSystem.Reachable form) (operation : WellFormedOperation)
    (hall : operation.1.observesAll = true) (hok : (form.step operation.1).2 = .ok t) :
    form.ListsDifferences (form.step operation.1).1 t :=
  step_differences (reachable_inv h) (reachable_typedShown h) operation hall hok

/-- The array shows its items again, and is listed. -/
theorem whole_form_differences_edited :
    Sample.edited.ListsDifferences Sample.edited.reset.1 Sample.edited.reset.2 ∧
    Sample.edited.identity 1 ∈ Sample.edited.reset.2.changed :=
  ⟨whole_form_differences Sample.edited_reachable ⟨.reset, trivial⟩ rfl rfl, by decide⟩

/-! ## Runs -/

/-- The transitions a run reports; a call that fails reports none. -/
def transitions (form : Form) : List WellFormedOperation → List Transition
  | [] => []
  | operation :: operations =>
    match form.step operation.1 with
    | (form, .ok t) => t :: form.transitions operations
    | (form, .error _) => form.transitions operations

/-- Every transition takes up where the one before it left off. -/
inductive Chain : Revisions → List Transition → Revisions → Prop where
  | nil {revisions : Revisions} : Chain revisions [] revisions
  | cons {t : Transition} {ts : List Transition} {revisions : Revisions} :
    Chain (t.afterData, t.afterState) ts revisions →
    Chain (t.beforeData, t.beforeState) (t :: ts) revisions

theorem refused_step (h : formSystem.Reachable form) {operation : WellFormedOperation}
    {error : OperationError} (herror : (form.step operation.1).2 = .error error) :
    (form.step operation.1).1 = form := by
  rcases step_atomic (reachable_inv h) (reachable_typedShown h) operation with ⟨hsame, -⟩ | ⟨t, ht⟩
  · exact hsame
  · rw [ht] at herror
    cases herror

/-- A transition without a new state revision is reported of a form that has not moved. -/
theorem still_step (h : formSystem.Reachable form) {operation : WellFormedOperation}
    (hok : (form.step operation.1).2 = .ok t) (hsame : t.beforeState = t.afterState) :
    (form.step operation.1).1 = form := by
  obtain ⟨hbefore, hafter⟩ := (reachable_reports h operation hok).stamped
  have hstate : form.stateRevision = (form.step operation.1).1.stateRevision := by
    rw [revisions, Prod.mk.injEq] at hbefore hafter
    rw [← hbefore.2, ← hafter.2, hsame]
  exact (reachable_effect h operation).unchanged (reachable_ordered h)
    (congrArg StateRevision.revision hstate).symm

/-- A reader that keeps the revisions of the last transition it saw notices a missing one; and a form
whose transitions carry one state revision throughout is the form there was. -/
theorem transitions_chain (h : formSystem.Reachable form)
    (operations : List WellFormedOperation) :
    Chain form.revisions (form.transitions operations) (formSystem.run form operations).revisions ∧
    ((∀ t ∈ form.transitions operations, t.beforeState = t.afterState) →
      formSystem.run form operations = form) := by
  induction operations generalizing form with
  | nil => exact ⟨.nil, fun _ => rfl⟩
  | cons operation operations ih =>
    have hnext : formSystem.Reachable (form.step operation.1).1 := h.step operation
    obtain ⟨hchain, hstill⟩ := ih hnext
    rw [TransitionSystem.run_cons]
    cases hresult : (form.step operation.1).2 with
    | error error =>
      have hsame := refused_step h hresult
      have hts : form.transitions (operation :: operations) = form.transitions operations := by
        rw [transitions, ← Prod.eta (form.step operation.1), hresult, hsame]
      have hrun : formSystem.step form operation = form := hsame
      rw [hts, hrun]
      exact ih h
    | ok t =>
      have hts : form.transitions (operation :: operations) =
          t :: (form.step operation.1).1.transitions operations := by
        rw [transitions, ← Prod.eta (form.step operation.1), hresult]
      obtain ⟨hbefore, hafter⟩ := (reachable_reports h operation hresult).stamped
      rw [hts]
      constructor
      · rw [← hbefore]
        refine .cons ?_
        rw [hafter]
        exact hchain
      · intro hempty
        have hform := still_step h hresult (hempty t List.mem_cons_self)
        have hrest := hstill fun u hu => hempty u (List.mem_cons_of_mem t hu)
        exact hrest.trans hform

/-- An item is appended and an item of another form is to be removed. -/
def appendAndRefuse : List WellFormedOperation :=
  [⟨.appendItem (Sample.empty.identity 1), trivial⟩,
    ⟨.removeItem (Sample.empty.identity 1) ⟨7, 1⟩, trivial⟩]

theorem transitions_chain_append :
    Chain Sample.empty.revisions (Sample.empty.transitions appendAndRefuse)
      (formSystem.run Sample.empty appendAndRefuse).revisions :=
  (transitions_chain Sample.empty_reachable appendAndRefuse).1

end Form

end Schemaform
