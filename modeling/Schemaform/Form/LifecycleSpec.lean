import Schemaform.Form.HostSpec

/-!
# Form.LifecycleSpec

What the operations on a whole form do.

* `Form.Inv`: the invariant of the engine under the form's definition and limits.
* `settle_eq`: the facade's part of a commit.
* `tryTransact_cases`, `transact_cases`, `reinitialize_cases`, `applyExternalFindings_cases`,
  `finalizeSubmission_form`.
-/

namespace Schemaform.Form

open Engine (EditError)

def Inv (form : Form) : Prop := form.engine.Inv form.definition.inner.engine form.numbers

variable {form form' : Form} {engine : Engine.Form}

/-- Only a change of the data revalidates and clears the external findings. -/
theorem settle_eq (form : Form) (engine : Engine.Form) :
    { form with engine }.settle form.revisions =
      if engine.dataRevision = form.engine.dataRevision then { form with engine }
      else { form with engine }.revalidate.clearExternalFindings := by
  by_cases h : engine.dataRevision = form.engine.dataRevision
  · simp [settle, revalidateIfDataChanged, revisions, dataRevision, h]
  · simp [settle, revalidateIfDataChanged, revisions, dataRevision, revalidate, h, Ne.symm h]

theorem settle_engine (form : Form) (engine : Engine.Form) :
    ({ form with engine }.settle form.revisions).engine = engine := by
  rw [settle_eq]
  split <;> rfl

/-! ## Host transactions -/

theorem hostCandidate_eq_ok {transaction : HostTransaction} {candidate : Value}
    (h : form.hostCandidate transaction = .ok candidate) :
    transaction.commitError = none ∧ transaction.valid = true ∧
    checkRuntimeFormData form.definition transaction.candidate form.limits = .ok () ∧
    transaction.candidate.isObject = true ∧
    candidate = preserveSemanticallyEqualValues form.formData transaction.candidate := by
  unfold hostCandidate at h
  split at h
  · cases h
  · rename_i hnone
    split at h
    · cases h
    · rename_i hvalid
      split at h
      · cases h
      · rename_i hcheck
        cases h
        simp only [Bool.or_eq_true, Bool.not_eq_true', not_or, Bool.not_eq_false] at hvalid
        exact ⟨hnone, hvalid.1, hcheck, hvalid.2, rfl⟩

/-- The form after a committed queue. -/
def hostCommitted (form : Form) (transaction : HostTransaction) (candidate : Value)
    (engine : Engine.Form) : Form :=
  if jsonValuesEqual form.formData candidate then
    { form with engine }.rebaseExternalFindingsForTopologies form.hostArrayTopologies
      transaction.arrayTopologies .remove
  else
    let validation := validate form.definition form.limits candidate
    { form with engine, validation }.clearExternalFindings

theorem hostCommitted_engine (form : Form) (transaction : HostTransaction) (candidate : Value)
    (engine : Engine.Form) : (form.hostCommitted transaction candidate engine).engine = engine := by
  unfold hostCommitted
  split <;> rfl

/-- What the commit reports. -/
def hostTransition (form : Form) (transaction : HostTransaction) (candidate : Value)
    (form' : Form) : Transition :=
  form'.topologyTransition form.revisions form'.revisions form.instanceIdentities
    (form'.hostChangedNodes (form.hostDirectlyChangedNodes candidate transaction.writes ++
      form.hostStructurallyChangedNodes transaction.arrayTopologies) form.revisions
      form.visibleValidationFindingsByNode form'.revisions)

/-- The queue after the closure has run. -/
def queued (form : Form) (operations : List HostOperation) : HostTransaction :=
  operations.foldl HostTransaction.apply form.hostTransaction

theorem queued_tracked (hinv : form.Inv) {operations : List HostOperation}
    (hwf : ∀ o ∈ operations, o.WF) : Tracked form.engine (form.queued operations) :=
  tracked_foldl form.engine_wf hinv (tracked_original rfl form.engine_wf hinv) hwf

theorem tryTransact_cases {ε : Type} {operations : List HostOperation} {closure : Except ε Unit}
    {r : Except (TransactionError ε) Transition} (hinv : form.Inv)
    (hwf : ∀ o ∈ operations, o.WF) (h : form.tryTransact operations closure = (form', r)) :
    Refused form form' r ∨ ∃ candidate engine, closure = .ok () ∧
      form.hostCandidate (form.queued operations) = .ok candidate ∧
      form.engine.applyHostTransaction candidate (form.queued operations).writes
        ((form.queued operations).arrayTopologies.map hostArrayChange)
        (form.queued operations).itemWrites = (engine, .ok ()) ∧
      form' = form.hostCommitted (form.queued operations) candidate engine ∧
      r = .ok (form.hostTransition (form.queued operations) candidate form') := by
  rcases attempt_cases h with hr | ⟨⟨⟩, hclosure, h⟩
  · exact .inl hr
  rcases attempt_cases h with hr | ⟨candidate, hcandidate, h⟩
  · exact .inl hr
  have hclosure := mapError_eq_ok.mp hclosure
  have hcandidate := mapError_eq_ok.mp hcandidate
  unfold commitHost at h
  dsimp only at h
  split at h
  · rename_i engine e he
    cases h
    have htracked := queued_tracked hinv hwf
    rcases Engine.Form.applyHostTransaction_cases hinv.identities_nodup htracked.found he with
      ⟨rfl, _⟩ | ⟨hok, _⟩
    · exact .inl ⟨rfl, _, rfl⟩
    · cases hok
  · rename_i engine he
    cases h
    refine .inr ⟨candidate, engine, hclosure, hcandidate, he, ?_, ?_⟩
    · unfold hostCommitted
      cases jsonValuesEqual form.formData candidate <;> rfl
    · unfold hostTransition
      cases jsonValuesEqual form.formData candidate <;> rfl

theorem transact_cases {operations : List HostOperation} {r : Except HostCommitError Transition}
    (hinv : form.Inv) (hwf : ∀ o ∈ operations, o.WF)
    (h : form.transact operations = (form', r)) :
    Refused form form' r ∨ ∃ candidate engine,
      form.hostCandidate (form.queued operations) = .ok candidate ∧
      form.engine.applyHostTransaction candidate (form.queued operations).writes
        ((form.queued operations).arrayTopologies.map hostArrayChange)
        (form.queued operations).itemWrites = (engine, .ok ()) ∧
      form' = form.hostCommitted (form.queued operations) candidate engine ∧
      r = .ok (form.hostTransition (form.queued operations) candidate form') := by
  unfold transact at h
  split at h
  · rename_i form₁ transition htry
    cases h
    rcases tryTransact_cases hinv hwf htry with ⟨_, _, hr⟩ | ⟨candidate, engine, _, hc, he, hf, hr⟩
    · cases hr
    · cases hr
      exact .inr ⟨candidate, engine, hc, he, hf, rfl⟩
  · rename_i form₁ error htry
    cases h
    rcases tryTransact_cases hinv hwf htry with ⟨hf, _⟩ | ⟨_, _, _, _, _, _, hr⟩
    · exact .inl ⟨hf, _, rfl⟩
    · cases hr

/-- The candidate of a queue: an object, well formed, every change announced. -/
theorem queued_candidate (hinv : form.Inv) {operations : List HostOperation}
    (hwf : ∀ o ∈ operations, o.WF) {candidate : Value}
    (h : form.hostCandidate (form.queued operations) = .ok candidate) :
    candidate.WF ∧ candidate.isObject = true ∧
    form.engine.HostWrites candidate (form.queued operations).writes
      ((form.queued operations).arrayTopologies.map hostArrayChange)
      (form.queued operations).itemWrites := by
  have htracked := queued_tracked hinv hwf
  obtain ⟨_, _, _, hobj, rfl⟩ := hostCandidate_eq_ok h
  obtain ⟨hcwf, heq⟩ := preserve_respells hinv.formData_wf htracked.candidate_wf
  exact ⟨hcwf, (isObject_congr heq).symm.trans hobj, htracked.hostWrites hinv hcwf heq⟩

/-! ## Reinitialization and external findings -/

theorem reinitialize_cases {formData : Value} {r : Except ReinitializeError Transition}
    (h : form.reinitialize formData = (form', r)) :
    Refused form form' r ∨ ∃ engine, form.engine.reinitialize formData = (engine, .ok ()) ∧
      form' = { form with engine }.clearExternalFindings.revalidate ∧
      r = .ok (form'.topologyTransition form.revisions form'.revisions form.instanceIdentities
        (form'.changedNodes form.nodeObservations)) := by
  unfold reinitialize at h
  split at h
  · cases h
    exact .inl ⟨rfl, _, rfl⟩
  · rcases attempt_cases h with hr | ⟨⟨⟩, _, h⟩
    · exact .inl hr
    dsimp only at h
    split at h
    · rename_i engine e he
      cases h
      rcases Engine.Form.reinitialize_cases he with ⟨rfl, _⟩ | ⟨hok, _⟩
      · exact .inl ⟨rfl, _, rfl⟩
      · cases hok
    · rename_i engine he
      cases h
      exact .inr ⟨engine, he, rfl, rfl⟩

/-- The form with one source's batch replaced. -/
def withBatch (form : Form) (batch : ExternalFindingBatch) : Form :=
  let (externalFindingBatches, changed) := replaceBatch form.externalFindingBatches batch
  if changed then { form with externalFindingBatches }.markStateChanged
  else { form with externalFindingBatches }

theorem applyExternalFindings_cases {batch : ExternalFindingBatch}
    {r : Except (Failure ExternalFindingError) Transition}
    (h : form.applyExternalFindings batch = (form', r)) :
    Refused form form' r ∨ ∃ stored, form.checkExternalFindings batch = .ok stored ∧
      form' = form.withBatch stored ∧
      r = .ok (transition form.revisions form'.revisions
        ((form.visibleExternalFindingsByNode.zip form'.visibleExternalFindingsByNode).filterMap
          fun ((identity, beforeFindings), (_, afterFindings)) =>
            if beforeFindings != afterFindings then some identity else none)) := by
  rcases attempt_cases h with hr | ⟨stored, hc, h⟩
  · exact .inl hr
  · cases h
    exact .inr ⟨stored, hc, rfl, rfl⟩

/-! ## Submission -/

theorem finalizeSubmission_form (form : Form) :
    form.finalizeSubmission.1 = { form with engine := form.engine.prepareSubmission.1 } := by
  unfold finalizeSubmission
  dsimp only
  split <;> rfl

theorem prepareSubmission_form (form : Form) :
    form.prepareSubmission.1 = { form with engine := form.engine.prepareSubmission.1 } := by
  have h := finalizeSubmission_form form
  unfold prepareSubmission
  dsimp only
  split <;> rename_i heq <;> rw [heq] at h <;> exact h

theorem prepareAdvisorySubmission_form (form : Form) :
    form.prepareAdvisorySubmission.1 =
      { form with engine := form.engine.prepareSubmission.1 } := by
  have h := finalizeSubmission_form form
  unfold prepareAdvisorySubmission
  dsimp only
  split <;> rename_i heq <;> rw [heq] at h <;> exact h

end Schemaform.Form
