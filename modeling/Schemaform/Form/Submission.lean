import Schemaform.Form.Reachable
import Schemaform.Form.Tree

/-!
# Form.Submission

What the two submissions say about a form.

* `identityForBinding_of_edit`: a control with edit state is found by its binding, so no parse
  blocker is lost on the way to a node.
* `reachable_validation`: the cached outcome is the validator's on the current data.
* `submission_sound`: the gated call is ready exactly when nothing blocks, with the current data, and
  the advisory call reports the same blockers.
-/

namespace Schemaform

open Engine (ControlState)

/-! ## The collected outcome -/

/-- Findings are only collected from errors, and one that is not kept is recorded as dropped. -/
theorem retainFinding_ne_nil {maximum : Nat} {findings findings' : List ValidationFinding}
    {truncated truncated' : Bool} {finding : ValidationFinding}
    (h : retainFinding maximum findings truncated finding = (findings', truncated')) :
    findings' ≠ [] ∨ truncated' = true := by
  unfold retainFinding at h
  split at h
  · rename_i hmem
    cases h
    exact .inl (List.ne_nil_of_mem hmem)
  · split at h
    · cases h
      exact .inl (by simp)
    · dsimp only at h
      split at h
      · cases h
        exact .inr rfl
      · split at h <;> cases h <;> exact .inr rfl

theorem collectFindings_ne_nil {maximum parameterBytes : Nat} {errors : List ValidationError}
    {findings : List ValidationFinding} {truncated invalid : Bool}
    (h : invalid = true → findings ≠ [] ∨ truncated = true) :
    validationBlockers (collectFindings maximum parameterBytes errors findings truncated invalid) =
      [] ↔ collectFindings maximum parameterBytes errors findings truncated invalid = .valid := by
  induction errors generalizing findings truncated invalid with
  | nil =>
    unfold collectFindings
    split
    · rename_i hinvalid
      simp only [validationBlockers, reduceCtorEq, iff_false]
      intro hnil
      obtain ⟨hf, ht⟩ := List.append_eq_nil_iff.mp hnil
      have hsorted : findings.insertionSort (fun a b => (compareFindings a b).isLE) = [] :=
        List.map_eq_nil_iff.mp hf
      rcases h hinvalid with hne | htruncated
      · have hlength := (List.perm_insertionSort (fun a b => (compareFindings a b).isLE) findings)
          |>.length_eq
        exact hne (List.length_eq_zero_iff.mp (hlength.symm.trans (congrArg List.length hsorted)))
      · rw [htruncated] at ht
        cases ht
    · exact iff_of_true rfl rfl
  | cons error errors ih =>
    unfold collectFindings
    split
    · exact iff_of_false nofun nofun
    · exact ih fun _ => retainFinding_ne_nil rfl

theorem validationBlockers_eq_nil (validator : Validator) (formData : Value)
    (maximum parameterBytes : Nat) :
    validationBlockers (validator.validateWithLimits formData maximum parameterBytes) = [] ↔
      validator.validateWithLimits formData maximum parameterBytes = .valid :=
  collectFindings_ne_nil nofun

namespace Form

variable {form : Form}

/-! ## From a binding to its node -/

/-- A control with edit state is shown at its current binding. -/
theorem node_of_edit (hinv : form.Inv) (ht : form.TypedShown) {p : Pointer} {c : ControlState}
    (hmem : (p, c) ∈ form.engine.boundControls) (hs : c.hasEditState = true) :
    ∃ identity, (form.node identity).isSome ∧ form.bindingOf identity = some p := by
  rcases Engine.mem_boundControls.mp hmem with ⟨hc, rfl⟩ | ⟨a, ha, i, item, hi, hc, rfl⟩
  · obtain ⟨d, hd, hinst⟩ := ht.controls c hc hs
    have howner : d.owningArray = none :=
      Option.isNone_iff_eq_none.mp (Option.isSome_eq_false_iff.mp hinst.owner)
    have hnode : form.node (form.identity d.id) = some ⟨form, form.identity d.id, d⟩ :=
      node_eq_some.mpr ⟨rfl, rfl, rfl, form.inner_wf.getElem?_id hd, howner⟩
    refine ⟨form.identity d.id, hnode ▸ rfl, ?_⟩
    rw [bindingOf, hnode]
    exact hinst.binding
  · obtain ⟨d, hd, hinst⟩ := ht.items a ha item (List.mem_of_getElem? hi) c hc hs
    have hin : form.InItem d a i item :=
      ⟨form.inner_wf.getElem?_id hd, hinst.ownerBinding, ha, hi⟩
    refine ⟨form.itemIdentity d.id (form.item item.identity), hin.resolves hinv ▸ rfl, ?_⟩
    rw [hin.bindingOf hinv, hinst.binding]
    rfl

theorem identityForBinding_of_edit (hinv : form.Inv) (ht : form.TypedShown) {p : Pointer}
    {c : ControlState} (hmem : (p, c) ∈ form.engine.boundControls) (hs : c.hasEditState = true) :
    (form.identityForBinding p).isSome := by
  obtain ⟨identity, hresolves, hb⟩ := node_of_edit hinv ht hmem hs
  rw [identityForBinding, List.find?_isSome]
  exact ⟨identity, (mem_instanceIdentities hinv).mpr hresolves, by simp [hb]⟩

/-! ## Cached validation -/

/-- The validator gives semantically equal values the same outcome. -/
def ValidatorCongr (validator : Validator) : Prop :=
  ∀ (v w : Value) (maximum parameterBytes : Nat), v.WF → w.WF → jsonValuesEqual v w = true →
    validator.validateWithLimits v maximum parameterBytes =
      validator.validateWithLimits w maximum parameterBytes

theorem reachable_validation (h : formSystem.Reachable form)
    (hv : ValidatorCongr form.definition.inner.validator) :
    form.validation = validate form.definition form.limits form.formData := by
  refine reachable_induction (P := fun form => ValidatorCongr form.definition.inner.validator →
    form.validation = validate form.definition form.limits form.formData)
    (fun form hinit _ => ?_) (fun form operation hinv ih hcongr => ?_) h hv
  · obtain ⟨builder, id, hwf, hb⟩ := hinit
    obtain ⟨_, _, _, _, rfl⟩ := build_ok hwf hb
    rfl
  · have heffect := step_effect hinv operation
    have hinv' := heffect.inv
    have ih := ih (heffect.definition ▸ hcongr)
    have hd : (formSystem.step form operation).definition = form.definition := heffect.definition
    have hl : (formSystem.step form operation).limits = form.limits := heffect.limits
    rw [hd, hl]
    rcases heffect.validated with hval | ⟨hval, heq⟩
    · exact hval
    · rw [hd] at hcongr
      refine hval.trans (ih.trans ?_)
      exact hcongr _ _ _ _ hinv.formData_wf hinv'.formData_wf heq

/-! ## Blockers -/

theorem mem_parseBlockers {engine : Engine.Form} {p : Pointer} {reason : Engine.ParseBlocker} :
    (p, reason) ∈ engine.parseBlockers ↔
      ∃ c, (p, c) ∈ engine.boundControls ∧ c.parseBlocker = some reason := by
  simp only [Engine.Form.parseBlockers, List.mem_filterMap, Option.map_eq_some_iff, Prod.exists,
    Prod.mk.injEq, exists_eq_right_right]
  constructor
  · rintro ⟨_, c, hmem, hc, rfl⟩
    exact ⟨c, hmem, hc⟩
  · rintro ⟨c, hmem, hc⟩
    exact ⟨p, c, hmem, hc, rfl⟩

theorem parseBlockers_eq_nil {engine : Engine.Form} :
    engine.parseBlockers = [] ↔ ∀ c ∈ engine.allControls, c.parseBlocker = none := by
  simp only [List.eq_nil_iff_forall_not_mem, Prod.forall, mem_parseBlockers,
    Engine.Form.mem_allControls, Option.eq_none_iff_forall_ne_some]
  constructor
  · rintro h c ⟨p, hmem⟩ reason hreason
    exact h p reason ⟨c, hmem, hreason⟩
  · rintro h p reason ⟨c, hmem, hreason⟩
    exact h c ⟨p, hmem⟩ reason hreason

/-- The engine holds no external findings of its own, so it only refuses unparsed text. -/
theorem engineBlockers_eq (hinv : form.Inv) : form.engine.engineBlockers =
    form.engine.parseBlockers.map fun (binding, reason) => .parse binding reason := by
  rw [Engine.Form.engineBlockers, hinv.batches]
  exact List.append_nil _

theorem engineParseBlockers_eq (hinv : form.Inv) :
    engineParseBlockers form.engine.prepareSubmission.2 = form.engine.parseBlockers := by
  unfold Engine.Form.prepareSubmission
  dsimp only
  rw [engineBlockers_eq hinv]
  split
  · rename_i hempty
    exact (List.map_eq_nil_iff.mp (List.isEmpty_iff.mp hempty)).symm
  · rw [engineParseBlockers, List.filterMap_map]
    exact List.filterMap_some

/-- The form both submissions leave. -/
def submitted (form : Form) : Form := { form with engine := form.engine.prepareSubmission.1 }

/-- Text that blocks is not finalized away. -/
theorem submitted_boundControls {p : Pointer} {c : ControlState}
    (hmem : (p, c) ∈ form.engine.boundControls) {reason : Engine.ParseBlocker}
    (hb : c.parseBlocker = some reason) : (p, c) ∈ form.submitted.engine.boundControls := by
  have hsame : c.finalizeEditBuffer = c :=
    Engine.Form.finalizeEditBuffer_eq_self (by simp [ControlState.canFinalize, hb])
  rcases Engine.mem_boundControls.mp hmem with ⟨hc, rfl⟩ | ⟨a, ha, i, item, hi, hc, rfl⟩
  · exact Engine.mem_boundControls.mpr (.inl ⟨List.mem_map.mpr ⟨c, hc, hsame⟩, rfl⟩)
  · refine Engine.mem_boundControls.mpr (.inr ⟨_, List.mem_map_of_mem ha, i,
      item.map ControlState.finalizeEditBuffer, ?_, List.mem_map.mpr ⟨c, hc, hsame⟩, rfl⟩)
    exact (List.getElem?_map ..).trans (congrArg _ hi)

/-- What blocks the form, by category. -/
def blockers (form : Form) : List SubmissionBlocker :=
  form.engine.parseBlockers.filterMap (fun (binding, reason) =>
    (form.submitted.identityForBinding binding).map fun target => .parse target reason) ++
  validationBlockers form.validation ++ form.capabilityBlockers ++ form.externalBlockers

theorem parse_eq_nil (hinv : form.Inv) (ht : form.TypedShown) :
    form.engine.parseBlockers.filterMap (fun (binding, reason) =>
      (form.submitted.identityForBinding binding).map fun target =>
        SubmissionBlocker.parse target reason) = [] ↔ form.engine.parseBlockers = [] := by
  rw [List.filterMap_eq_nil_iff]
  constructor
  · intro h
    refine List.eq_nil_iff_forall_not_mem.mpr ?_
    rintro ⟨p, reason⟩ hmem
    obtain ⟨c, hc, hb⟩ := mem_parseBlockers.mp hmem
    have heffect := prepareSubmission_effect hinv
    have hsome := identityForBinding_of_edit heffect.inv (heffect.typed ht)
      (submitted_boundControls hc hb) (by simp [ControlState.hasEditState, hb])
    obtain ⟨identity, hid⟩ := Option.isSome_iff_exists.mp hsome
    have hnone := h (p, reason) hmem
    dsimp only at hnone
    rw [submitted, hid] at hnone
    cases hnone
  · intro h
    simp [h]

theorem finalizeSubmission_eq (hinv : form.Inv) (ht : form.TypedShown) :
    form.finalizeSubmission = (form.submitted, .ok form.blockers) := by
  have hlist : (engineParseBlockers form.engine.prepareSubmission.2).filterMap
      (fun (binding, reason) => (form.submitted.identityForBinding binding).map fun target =>
        SubmissionBlocker.parse target reason) ++ validationBlockers form.validation ++
      form.capabilityBlockers ++ form.externalBlockers = form.blockers := by
    rw [engineParseBlockers_eq hinv]
    rfl
  have hpanic : (!form.engine.prepareSubmission.2.isOk && form.blockers.isEmpty) = false := by
    cases hempty : form.blockers.isEmpty with
    | false => exact Bool.and_false _
    | true =>
      have hnil := List.isEmpty_iff.mp hempty
      simp only [blockers, List.append_eq_nil_iff] at hnil
      have hparse := (parse_eq_nil hinv ht).mp hnil.1.1.1
      have hok : form.engine.engineBlockers = [] := by rw [engineBlockers_eq hinv, hparse]; rfl
      simp [Engine.Form.prepareSubmission, hok, Except.isOk, Except.toBool]
  have heq : form.finalizeSubmission =
      if !form.engine.prepareSubmission.2.isOk && form.blockers.isEmpty then
        (form.submitted, .error
          (.panic "an engine submission refusal reports at least one blocker"))
      else (form.submitted, .ok form.blockers) := by
    rw [← hlist]
    rfl
  rw [heq, if_neg (Bool.eq_false_iff.mp hpanic)]

/-- Nothing that a submission may not be taken with. -/
structure Submittable (form : Form) : Prop where
  parsed : ∀ c ∈ form.engine.allControls, c.parseBlocker = none
  valid : validate form.definition form.limits form.formData = .valid
  capabilities : ∀ finding ∈ form.definition.inner.capabilityFindings, finding.isBlocking = false
  external : ∀ batch ∈ form.externalFindingBatches, ∀ finding ∈ batch.findings,
    finding.blocking = false

theorem blockers_eq_nil (hinv : form.Inv) (ht : form.TypedShown)
    (hv : form.validation = validate form.definition form.limits form.formData) :
    form.blockers = [] ↔ form.Submittable := by
  have hparse := (parse_eq_nil hinv ht).trans parseBlockers_eq_nil
  have hvalid : validationBlockers form.validation = [] ↔
      validate form.definition form.limits form.formData = .valid := by
    rw [hv]
    exact validationBlockers_eq_nil _ _ _ _
  simp only [blockers, List.append_eq_nil_iff, hparse, hvalid, capabilityBlockers, externalBlockers,
    List.map_eq_nil_iff, List.filter_eq_nil_iff, List.flatMap_eq_nil_iff, Bool.not_eq_true]
  constructor
  · rintro ⟨⟨⟨hp, hval⟩, hc⟩, he⟩
    exact ⟨hp, hval, hc, he⟩
  · rintro ⟨hp, hval, hc, he⟩
    exact ⟨⟨⟨hp, hval⟩, hc⟩, he⟩

/-! ## Both submissions -/

theorem prepareSubmission_eq (hinv : form.Inv) (ht : form.TypedShown) :
    form.prepareSubmission = (form.submitted, .ok ⟨transition form.revisions
        form.submitted.revisions (form.submitted.changedNodes form.nodeObservations),
      if form.blockers.isEmpty then .ready ⟨form.formData, form.dataRevision⟩
      else .blocked form.blockers⟩) := by
  unfold prepareSubmission
  dsimp only
  rw [finalizeSubmission_eq hinv ht]
  rfl

theorem prepareAdvisorySubmission_eq (hinv : form.Inv) (ht : form.TypedShown) :
    form.prepareAdvisorySubmission = (form.submitted, .ok ⟨transition form.revisions
        form.submitted.revisions (form.submitted.changedNodes form.nodeObservations),
      ⟨form.formData, form.dataRevision, form.blockers⟩⟩) := by
  unfold prepareAdvisorySubmission
  dsimp only
  rw [finalizeSubmission_eq hinv ht]
  rfl

/-- The gated submission is ready exactly when nothing blocks, with the current data; the advisory
one carries the same data and what the gated one is blocked by. -/
theorem submission_sound (h : formSystem.Reachable form)
    (hv : ValidatorCongr form.definition.inner.validator) :
    ∃ gated advisory, form.prepareSubmission.2 = .ok gated ∧
      form.prepareAdvisorySubmission.2 = .ok advisory ∧
      ((∃ snapshot, gated.outcome = .ready snapshot) ↔ form.Submittable) ∧
      (∀ snapshot, gated.outcome = .ready snapshot →
        snapshot = ⟨form.formData, form.dataRevision⟩) ∧
      advisory.submission.formData = form.formData ∧
      advisory.submission.dataRevision = form.dataRevision ∧
      (∀ blockers, gated.outcome = .blocked blockers → advisory.submission.findings = blockers) ∧
      (advisory.submission.findings = [] ↔ ∃ snapshot, gated.outcome = .ready snapshot) ∧
      form.prepareSubmission.1.formData = form.formData ∧
      form.prepareSubmission.1.dataRevision = form.dataRevision ∧
      form.prepareAdvisorySubmission.1.formData = form.formData ∧
      form.prepareAdvisorySubmission.1.dataRevision = form.dataRevision := by
  have hinv := reachable_inv h
  have ht := reachable_typedShown h
  have hnil := blockers_eq_nil hinv ht (reachable_validation h hv)
  rw [prepareSubmission_eq hinv ht, prepareAdvisorySubmission_eq hinv ht]
  refine ⟨_, _, rfl, rfl, ?_, ?_, rfl, rfl, ?_, ?_, rfl, rfl, rfl, rfl⟩
  all_goals dsimp only
  all_goals cases hb : form.blockers <;> simp [← hnil, hb]

end Form

namespace Sample

def duplicate : ExternalFinding := ⟨"duplicate", ["n"], .object [], true⟩

/-- A blocking finding from outside, and text that is no number. -/
def refused : Form :=
  formSystem.run five [⟨.applyExternalFindings ⟨"server", ⟨0, 0⟩, [duplicate]⟩, by
      change ∀ finding ∈ [duplicate], finding.parameters.WF
      decide⟩,
    ⟨.inputText (five.identity 1) "x", trivial⟩]

theorem refused_reachable : formSystem.Reachable refused := five_reachable.run _

end Sample

namespace Form

open Sample

theorem submission_sound_refused :
    ∃ gated advisory, refused.prepareSubmission.2 = .ok gated ∧
      refused.prepareAdvisorySubmission.2 = .ok advisory ∧
      (¬ ∃ snapshot, gated.outcome = .ready snapshot) ∧
      advisory.submission.formData = refused.formData ∧
      advisory.submission.findings =
        [.parse (refused.identity 1) .invalidNumber, .external "server" duplicate] := by
  obtain ⟨gated, advisory, hgated, hadvisory, hready, -, hdata, -, hfindings, -⟩ :=
    submission_sound refused_reachable fun _ _ _ _ _ _ _ => rfl
  have hblocked : gated.outcome =
      .blocked [.parse (refused.identity 1) .invalidNumber, .external "server" duplicate] := by
    cases hgated
    rfl
  refine ⟨gated, advisory, hgated, hadvisory, ?_, hdata, hfindings _ hblocked⟩
  rw [hblocked]
  rintro ⟨_, ⟨⟩⟩

end Form

end Schemaform
