import Schemaform.Form.Submission

/-!
# Form.Atomicity

A call that fails leaves the form as it was.

* `Atomic`: a call either reports a transition or returns an error and the form it was given.
* `step_atomic`: every operation is atomic.
* `failure_atomic`: so no error leaves a trace in any reachable form.
-/

namespace Schemaform.Form

variable {form : Form}

def Atomic {ε : Type} (form : Form) (result : Form × Except ε Transition) : Prop :=
  Refused form result.1 result.2 ∨ ∃ transition, result.2 = .ok transition

theorem Atomic.outcome {ε : Type} {result : Form × Except ε Transition}
    (h : form.Atomic result) (wrap : ε → OperationError) : form.Atomic (outcome wrap result) := by
  obtain ⟨form', r⟩ := result
  rcases h with ⟨hf, e, he⟩ | ⟨transition, ht⟩
  · dsimp only at hf he
    exact .inl ⟨hf, wrap e, by rw [Schemaform.outcome, he]; rfl⟩
  · dsimp only at ht
    exact .inr ⟨transition, by rw [Schemaform.outcome, ht]; rfl⟩

theorem StructureOrScalar.reports {target : InstanceIdentity} {binding : Pointer}
    {engine : Engine.Form} {form' : Form} {r : Except UserOperationError Transition}
    (h : form.StructureOrScalar target binding engine form' r) :
    ∃ transition, r = .ok transition := by
  unfold StructureOrScalar at h
  split at h <;> exact ⟨_, h.2⟩

/-! ## One operation -/

theorem removeValue_atomic (target : InstanceIdentity) : form.Atomic (form.removeValue target) :=
  (removeValue_cases rfl).imp_right fun ⟨_, _, _, hs⟩ => hs.reports

theorem replaceValue_atomic (target : InstanceIdentity) (value : Value) :
    form.Atomic (form.replaceValue target value) :=
  (replaceValue_cases rfl).imp_right fun ⟨_, _, _, hs⟩ => hs.reports

/-- The engine refuses a queue before it changes anything, or carries all of it out. -/
theorem tryTransact_atomic {ε : Type} (hinv : form.Inv) {operations : List HostOperation}
    (hwf : ∀ o ∈ operations, o.WF) (closure : Except ε Unit) :
    form.Atomic (form.tryTransact operations closure) :=
  (tryTransact_cases hinv hwf rfl).imp_right fun ⟨_, _, _, _, _, _, hr⟩ => ⟨_, hr⟩

theorem transact_atomic (hinv : form.Inv) {operations : List HostOperation}
    (hwf : ∀ o ∈ operations, o.WF) : form.Atomic (form.transact operations) :=
  (transact_cases hinv hwf rfl).imp_right fun ⟨_, _, _, _, _, hr⟩ => ⟨_, hr⟩

theorem prepareSubmission_atomic (hinv : form.Inv) (ht : form.TypedShown) :
    form.Atomic (form.step .prepareSubmission) := by
  exact .inr ⟨_, by rw [step, prepareSubmission_eq hinv ht]; rfl⟩

theorem prepareAdvisorySubmission_atomic (hinv : form.Inv) (ht : form.TypedShown) :
    form.Atomic (form.step .prepareAdvisorySubmission) := by
  exact .inr ⟨_, by rw [step, prepareAdvisorySubmission_eq hinv ht]; rfl⟩

/-! ## Every operation -/

theorem step_atomic (hinv : form.Inv) (ht : form.TypedShown) (operation : WellFormedOperation) :
    form.Atomic (form.step operation.1) := by
  obtain ⟨operation, hwf⟩ := operation
  cases operation with
  | inputText target text =>
    refine Atomic.outcome ?_ _
    exact (inputText_cases rfl).imp_right fun ⟨_, _, _, _, hr⟩ => ⟨_, hr⟩
  | blur target =>
    refine Atomic.outcome ?_ _
    exact (blur_cases rfl).imp_right fun ⟨_, _, _, _, _, _, _, _, _, hr⟩ => ⟨_, hr⟩
  | setValue target value =>
    refine Atomic.outcome ?_ _
    exact (setValue_cases rfl).imp_right fun ⟨_, _, _, _, hr⟩ => ⟨_, hr⟩
  | setNull target =>
    refine Atomic.outcome ?_ _
    exact (setNull_cases rfl).imp_right fun ⟨_, _, _, _, hr⟩ => ⟨_, hr⟩
  | removeValue target => exact (removeValue_atomic target).outcome _
  | replaceValue target value => exact (replaceValue_atomic target value).outcome _
  | materialize target =>
    refine Atomic.outcome ?_ _
    exact (materialize_cases rfl).imp_right fun ⟨_, _, _, _, _, _, hr⟩ => ⟨_, hr⟩
  | appendItem array =>
    refine Atomic.outcome ?_ _
    exact (appendItem_cases rfl).imp_right fun ⟨_, _, _, _, _, _, _, hr⟩ => ⟨_, hr⟩
  | insertItemBefore array before =>
    refine Atomic.outcome ?_ _
    exact (insertItemBefore_cases rfl).imp_right fun ⟨_, _, _, _, _, _, _, _, hr⟩ => ⟨_, hr⟩
  | removeItem array item =>
    refine Atomic.outcome ?_ _
    exact (removeItem_cases rfl).imp_right fun ⟨_, _, _, _, _, _, _, _, hr⟩ => ⟨_, hr⟩
  | moveItem direction array item =>
    refine Atomic.outcome ?_ _
    exact (moveItem_cases rfl).imp_right fun ⟨_, _, _, _, _, _, _, _, hr⟩ => ⟨_, hr⟩
  | toggleChoice array value =>
    refine Atomic.outcome ?_ _
    exact (toggleChoice_cases rfl).imp_right fun ⟨_, _, _, _, _, _, _, hr⟩ => ⟨_, hr⟩
  | transact operations => exact (transact_atomic hinv hwf).outcome _
  | tryTransact operations closure => exact (tryTransact_atomic hinv hwf closure).outcome _
  | applyExternalFindings batch =>
    refine Atomic.outcome ?_ _
    exact (applyExternalFindings_cases rfl).imp_right fun ⟨_, _, _, hr⟩ => ⟨_, hr⟩
  | reset => exact .inr ⟨_, rfl⟩
  | setFindingVisibility policy => exact .inr ⟨_, rfl⟩
  | setReadOnly readOnly => exact .inr ⟨_, rfl⟩
  | reinitialize formData =>
    refine Atomic.outcome ?_ _
    exact (reinitialize_cases rfl).imp_right fun ⟨_, _, _, hr⟩ => ⟨_, hr⟩
  | prepareSubmission => exact prepareSubmission_atomic hinv ht
  | prepareAdvisorySubmission => exact prepareAdvisorySubmission_atomic hinv ht

/-- An operation that fails leaves every part of a reachable form as it was. -/
theorem failure_atomic (h : formSystem.Reachable form) (operation : WellFormedOperation)
    {error : OperationError} (he : (form.step operation.1).2 = .error error) :
    (form.step operation.1).1 = form := by
  rcases step_atomic (reachable_inv h) (reachable_typedShown h) operation with hr | ⟨_, hok⟩
  · exact hr.1
  · rw [he] at hok
    cases hok

/-- A write, then the removal of an item that is not there. -/
def staleRemoval : WellFormedOperation where
  val := .transact [.set ["a"] (.array [.string "x"]), .removeItem ["a"] ⟨0, 7⟩]
  property := List.forall_mem_cons.mpr ⟨show Value.WF _ by decide, by simp [HostOperation.WF]⟩

theorem failure_atomic_staleRemoval : (Sample.empty.step staleRemoval.1).1 = Sample.empty := by
  have he : (Sample.empty.step staleRemoval.1).2 = .error (.hostCommit .invalidOperation) := by
    decide
  exact failure_atomic Sample.empty_reachable staleRemoval he

end Schemaform.Form
