import Schemaform.Form.Submission

/-!
# Form.Baseline

What a reset restores.

* `Engine.Form.reset_untouched`, `reset_settled`: nothing is left for a second reset.
* `Restored`: data, items and interaction state of the baseline, under the policies in force.
* `reset_restores`: a reset restores, and a second one reports nothing.
-/

namespace Schemaform

namespace Engine.Form

variable {form : Form} {definition : FormDefinition} {numbers : NumberInput}

theorem clear_of_cleared {control : ControlState} (h : control.hasEditState = false) :
    control.editBuffer = none ∧ control.parseBlocker = none := by
  simpa [ControlState.hasEditState] using h

/-- No control of the restored form has been touched. -/
theorem reset_controls_untouched (form : Form) : ∀ c ∈ form.reset.allControls, c.touched = false := by
  intro c hc
  rcases List.mem_append.mp hc with hc | hc
  · obtain ⟨c, _, rfl⟩ := List.mem_map.mp hc
    rfl
  · obtain ⟨item', hitem, hc⟩ := List.mem_flatMap.mp hc
    obtain ⟨a', ha', hi'⟩ := List.mem_flatMap.mp hitem
    rcases mem_reset_arrays ha' with ⟨a, _, _, hitems⟩ | ⟨ids, hitems⟩
    · rw [hitems] at hi'
      obtain ⟨item, _, rfl⟩ := List.mem_map.mp hi'
      obtain ⟨c, _, rfl⟩ := List.mem_map.mp hc
      rfl
    · rw [hitems] at hi'
      obtain ⟨identity, rfl⟩ := new_of_withIdentities hi'
      obtain ⟨d, _, rfl⟩ := List.mem_map.mp hc
      rfl

theorem restoreArrays_untouched {arrays : List ArrayState} {baseline : List (List Nat)}
    (h : ∀ a ∈ arrays, a.touched = false) :
    ∀ a ∈ restoreArrays arrays baseline, a.touched = false := by
  induction arrays generalizing baseline with
  | nil =>
    intro a ha
    cases baseline <;> cases ha
  | cons array arrays ih =>
    obtain ⟨hhead, htail⟩ := List.forall_mem_cons.mp h
    cases baseline with
    | nil => exact h
    | cons identities baseline => exact List.forall_mem_cons.mpr ⟨hhead, ih htail⟩

theorem reset_arrays_untouched (form : Form) : ∀ a ∈ form.reset.arrays, a.touched = false := by
  have hbase : ∀ a ∈ (form.mapControls ControlState.clearLifecycleState).untouchArrays.arrays,
      a.touched = false := by
    intro a ha
    obtain ⟨a, _, rfl⟩ := List.mem_map.mp ha
    rfl
  intro a ha
  simp only [reset, advance_arrays] at ha
  split at ha
  · exact restoreArrays_untouched hbase a ha
  · exact hbase a ha

theorem reset_submissionAttempted (form : Form) : form.reset.submissionAttempted = false := rfl

theorem reset_baselineArrayIdentities (form : Form) :
    form.reset.baselineArrayIdentities = form.baselineArrayIdentities := rfl

/-- The restored data are the baseline's, in one spelling or the other. -/
theorem reset_formData_equal (form : Form) :
    jsonValuesEqual form.reset.formData form.baseline = true := by
  rw [reset_formData]
  split
  · assumption
  · exact jsonValuesEqual_refl _

theorem topologyChanged_eq_false (h : form.arrays.map (·.identities) = form.baselineArrayIdentities) :
    form.topologyChanged = false := by
  rw [topologyChanged, ← h, List.any_eq_false]
  intro e he
  obtain ⟨i, hi, rfl⟩ := List.mem_iff_getElem.mp he
  rw [List.getElem_zip, List.getElem_map]
  simp

/-- A second reset counts nothing. -/
theorem reset_settled (hinv : form.Inv definition numbers) :
    form.reset.reset.stateRevision = form.reset.stateRevision := by
  have hdata : jsonValuesEqual form.reset.formData form.reset.baseline = true := by
    rw [reset_baseline]
    exact reset_formData_equal form
  have htopology : form.reset.topologyChanged = false :=
    topologyChanged_eq_false (reset_identities hinv)
  have hcontrols : form.reset.allControls.any ControlState.hasLifecycleState = false := by
    refine List.any_eq_false.mpr fun c hc => ?_
    rw [ControlState.hasLifecycleState, reset_clear form c hc, reset_controls_untouched form c hc]
    exact Bool.false_ne_true
  have harrays : form.reset.arrays.any (·.touched) = false := by
    refine List.any_eq_false.mpr fun a ha => ?_
    rw [reset_arrays_untouched form a ha]
    exact Bool.false_ne_true
  generalize hreset : form.reset = restored at *
  have hsubmission : restored.submissionAttempted = false :=
    hreset ▸ reset_submissionAttempted form
  simp [reset, advance, mapControls, untouchArrays, hdata, htopology, hcontrols, harrays, hsubmission]

end Engine.Form

namespace Form

variable {form form' : Form}

/-- The form is back at its baseline. -/
structure Restored (form form' : Form) : Prop where
  data : jsonValuesEqual form'.formData form.engine.baseline = true
  items : form'.engine.arrays.map (·.identities) = form.engine.baselineArrayIdentities
  controls : ∀ c ∈ form'.engine.allControls,
    c.editBuffer = none ∧ c.parseBlocker = none ∧ c.touched = false
  choices : ∀ a ∈ form'.engine.arrays, a.touched = false
  submission : form'.engine.submissionAttempted = false
  clean : ∀ identity node, form'.node identity = some node → node.isDirty = false
  validation : ValidatorCongr form.definition.inner.validator →
    form'.validation = validate form'.definition form'.limits form'.formData
  baseline : form'.engine.baseline = form.engine.baseline
  baselineItems : form'.engine.baselineArrayIdentities = form.engine.baselineArrayIdentities
  visibility : form'.findingVisibility = form.findingVisibility
  readOnly : form'.readOnly = form.readOnly

theorem reset_reachable (h : formSystem.Reachable form) : formSystem.Reachable form.reset.1 := by
  have hstep : formSystem.Reachable (formSystem.step form ⟨.reset, trivial⟩) := h.step _
  exact hstep

theorem reset_engine (form : Form) : form.reset.1.engine = form.engine.reset := by
  rw [reset_eq]
  split <;> rfl

theorem reset_policies (form : Form) :
    form.reset.1.findingVisibility = form.findingVisibility ∧
    form.reset.1.readOnly = form.readOnly := by
  rw [reset_eq]
  split <;> exact ⟨rfl, rfl⟩

/-- Over data equal to the baseline no binding differs from it. -/
theorem boundValueIsDirty_eq_false {engine : Engine.Form} (hdata : engine.formData.WF)
    (hbaseline : engine.baseline.WF)
    (h : jsonValuesEqual engine.formData engine.baseline = true) (binding : Pointer) :
    engine.boundValueIsDirty binding = false := by
  have hsame := resolve_congr hdata hbaseline h binding
  unfold Engine.Form.boundValueIsDirty
  generalize Pointer.resolve binding engine.formData = current at hsame
  generalize Pointer.resolve binding engine.baseline = baseline at hsame
  cases hsame with
  | none => rfl
  | some heq =>
    dsimp only
    rw [heq]
    rfl

theorem reset_restored (h : formSystem.Reachable form) : form.Restored form.reset.1 := by
  have hinv := reachable_inv h
  have hreset := reset_reachable h
  have hinv' := reachable_inv hreset
  have hengine := reset_engine form
  have hdefinition : form.reset.1.definition = form.definition := (reset_effect hinv).definition
  refine ⟨?_, ?_, ?_, ?_, ?_, ?_, ?_, ?_, ?_, (reset_policies form).1, (reset_policies form).2⟩
  · rw [formData, hengine]
    exact Engine.Form.reset_formData_equal form.engine
  · rw [hengine]
    exact Engine.Form.reset_identities hinv
  · rw [hengine]
    intro c hc
    obtain ⟨hbuffer, hblocker⟩ := Engine.Form.clear_of_cleared (Engine.Form.reset_clear _ c hc)
    exact ⟨hbuffer, hblocker, Engine.Form.reset_controls_untouched _ c hc⟩
  · rw [hengine]
    exact Engine.Form.reset_arrays_untouched form.engine
  · rw [hengine]
    exact Engine.Form.reset_submissionAttempted form.engine
  · intro identity node hnode
    obtain ⟨_, hform, _⟩ := node_eq_some.mp hnode
    have hequal : jsonValuesEqual form.reset.1.engine.formData form.reset.1.engine.baseline =
        true := by
      rw [hengine, Engine.Form.reset_baseline]
      exact Engine.Form.reset_formData_equal form.engine
    have hclean := boundValueIsDirty_eq_false hinv'.formData_wf hinv'.baseline_wf hequal
    unfold NodeView.isDirty
    cases hb : node.binding with
    | none => rfl
    | some binding =>
      rw [hform]
      exact hclean binding
  · intro hv
    exact reachable_validation hreset (hdefinition ▸ hv)
  · rw [hengine, Engine.Form.reset_baseline]
  · rw [hengine, Engine.Form.reset_baselineArrayIdentities]

/-- Nodes observed in the state they are compared with have not changed. -/
theorem changedNodes_self (form : Form) : form.changedNodes form.nodeObservations = [] := by
  refine List.filter_eq_nil_iff.mpr fun identity hidentity => ?_
  cases hobservation : form.nodeObservation identity with
  | none => simp
  | some observation =>
    have hlookup : form.nodeObservations.lookup identity = some observation := by
      have hkeys : ∀ e ∈ form.nodeObservations, form.nodeObservation e.1 = some e.2 := by
        intro e he
        obtain ⟨other, _, hother⟩ := List.mem_filterMap.mp he
        obtain ⟨found, hfound, rfl⟩ := Option.map_eq_some_iff.mp hother
        exact hfound
      have hmem : (identity, observation) ∈ form.nodeObservations :=
        List.mem_filterMap.mpr ⟨identity, hidentity, by rw [hobservation]; rfl⟩
      cases hfound : form.nodeObservations.lookup identity with
      | none =>
        have hne := List.lookup_eq_none_iff.mp hfound _ hmem
        simp at hne
      | some found =>
        obtain ⟨before, after, hsplit, _⟩ := List.lookup_eq_some_iff.mp hfound
        have hat := hkeys (identity, found) (hsplit ▸ by simp)
        exact congrArg some (Option.some.inj (hat.symm.trans hobservation))
    simp [hlookup]

/-- A reset that leaves the form as it is reports nothing. -/
theorem reset_silent (h : form.reset.1 = form) :
    form.reset.2.changed = [] ∧ form.reset.2.removed = [] := by
  have hchanged : form.reset.2 = form.reset.1.topologyTransition form.revisions
      form.reset.1.revisions form.instanceIdentities
      (form.reset.1.changedNodes form.nodeObservations) := rfl
  rw [h, changedNodes_self] at hchanged
  have hnone : form.instanceIdentities.filter
      (fun identity => !form.instanceIdentities.contains identity) = [] :=
    List.filter_eq_nil_iff.mpr fun identity hidentity => by simpa using hidentity
  rw [hchanged, topologyTransition]
  dsimp only
  rw [hnone]
  exact ⟨rfl, rfl⟩

theorem reset_reset (h : formSystem.Reachable form) : form.reset.1.reset.1 = form.reset.1 := by
  have hreset := reset_reachable h
  refine (reset_effect (reachable_inv hreset)).unchanged (reachable_ordered hreset) ?_
  rw [reset_engine, reset_engine]
  exact Engine.Form.reset_settled (reachable_inv h)

/-- A reset restores the baseline, and a second one finds nothing to do or to report. -/
theorem reset_restores (h : formSystem.Reachable form) :
    form.Restored form.reset.1 ∧
    form.reset.1.reset.1.revisions = form.reset.1.revisions ∧
    form.reset.1.reset.2.changed = [] ∧ form.reset.1.reset.2.removed = [] := by
  have hsame := reset_reset h
  obtain ⟨hchanged, hremoved⟩ := reset_silent hsame
  exact ⟨reset_restored h, congrArg revisions hsame, hchanged, hremoved⟩

/-- After an edit, a touch and removals. -/
theorem reset_restores_edited :
    Sample.edited.Restored Sample.edited.reset.1 ∧
    Sample.edited.reset.1.reset.1.revisions = Sample.edited.reset.1.revisions ∧
    Sample.edited.reset.1.reset.2.changed = [] ∧ Sample.edited.reset.1.reset.2.removed = [] :=
  reset_restores Sample.edited_reachable

end Form

end Schemaform
