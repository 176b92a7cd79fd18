import Schemaform.Form.External
import Schemaform.Lib.Run

/-!
# Form.System

A form under any sequence of operations.

* `Operation`: every call that may change a form, with the values it is given.
* `Form.step`: the state after the call and the transition it reports, or why it reports none.
* `formSystem`: from a built form, any operations in any order, failing ones included.
-/

namespace Schemaform

inductive Operation where
  | inputText (target : InstanceIdentity) (text : String)
  | blur (target : InstanceIdentity)
  | setValue (target : InstanceIdentity) (value : Value)
  | setNull (target : InstanceIdentity)
  | removeValue (target : InstanceIdentity)
  | replaceValue (target : InstanceIdentity) (value : Value)
  | materialize (target : InstanceIdentity)
  | appendItem (array : InstanceIdentity)
  | insertItemBefore (array : InstanceIdentity) (before : ItemIdentity)
  | removeItem (array : InstanceIdentity) (item : ItemIdentity)
  | moveItem (direction : Engine.ArrayMove) (array : InstanceIdentity) (item : ItemIdentity)
  | toggleChoice (array : InstanceIdentity) (value : Value)
  | transact (operations : List HostOperation)
  | tryTransact (operations : List HostOperation) (closure : Except Unit Unit)
  | applyExternalFindings (batch : ExternalFindingBatch)
  | reset
  | setFindingVisibility (policy : FindingVisibilityPolicy)
  | setReadOnly (readOnly : Bool)
  | reinitialize (formData : Value)
  | prepareSubmission
  | prepareAdvisorySubmission

inductive OperationError where
  | user (error : UserOperationError)
  | transaction (error : TransactionError Unit)
  | hostCommit (error : HostCommitError)
  | externalFindings (error : ExternalFindingError)
  | reinitialize (error : ReinitializeError)
  | panic (message : String)
deriving DecidableEq, Repr

def Failure.operationError {ε : Type} (wrap : ε → OperationError) : Failure ε → OperationError
  | .error e => wrap e
  | .panic message => .panic message

/-- JSON values as `serde_json` holds them. -/
def HostOperation.WF : HostOperation → Prop
  | .set _ value | .replaceAll value | .appendItem _ value | .insertItemBefore _ _ value => value.WF
  | .remove _ | .removeItem _ _ | .moveItem _ _ _ => True

instance (operation : HostOperation) : Decidable operation.WF :=
  match operation with
  | .set _ value | .replaceAll value | .appendItem _ value | .insertItemBefore _ _ value =>
    inferInstanceAs (Decidable value.WF)
  | .remove _ | .removeItem _ _ | .moveItem _ _ _ => .isTrue trivial

def Operation.WF : Operation → Prop
  | .setValue _ value | .replaceValue _ value | .toggleChoice _ value
  | Operation.reinitialize value => value.WF
  | .transact operations | .tryTransact operations _ => ∀ o ∈ operations, o.WF
  | .applyExternalFindings batch => ∀ f ∈ batch.findings, f.parameters.WF
  | _ => True

/-- An operation whose values are JSON values. -/
abbrev WellFormedOperation := { operation : Operation // operation.WF }

/-- The state a call leaves, with its error wrapped. -/
def outcome {ε : Type} (wrap : ε → OperationError) (result : Form × Except ε Transition) :
    Form × Except OperationError Transition := (result.1, result.2.mapError wrap)

namespace Form

def step (form : Form) : Operation → Form × Except OperationError Transition
  | .inputText target text => outcome .user (form.inputText target text)
  | .blur target => outcome .user (form.blur target)
  | .setValue target value => outcome .user (form.setValue target value)
  | .setNull target => outcome .user (form.setNull target)
  | .removeValue target => outcome .user (form.removeValue target)
  | .replaceValue target value => outcome .user (form.replaceValue target value)
  | .materialize target => outcome .user (form.materialize target)
  | .appendItem array => outcome .user (form.appendItem array)
  | .insertItemBefore array before => outcome .user (form.insertItemBefore array before)
  | .removeItem array item => outcome .user (form.removeItem array item)
  | .moveItem direction array item => outcome .user (form.moveItem direction array item)
  | .toggleChoice array value => outcome .user (form.toggleChoice array value)
  | .transact operations => outcome .hostCommit (form.transact operations)
  | .tryTransact operations closure =>
    outcome .transaction (form.tryTransact operations closure)
  | .applyExternalFindings batch =>
    outcome (Failure.operationError .externalFindings) (form.applyExternalFindings batch)
  | .reset => (form.reset.1, .ok form.reset.2)
  | .setFindingVisibility policy =>
    ((form.setFindingVisibility policy).1, .ok (form.setFindingVisibility policy).2)
  | .setReadOnly readOnly => ((form.setReadOnly readOnly).1, .ok (form.setReadOnly readOnly).2)
  | Operation.reinitialize formData =>
    outcome OperationError.reinitialize (form.reinitialize formData)
  | .prepareSubmission =>
    outcome (Failure.operationError nofun)
      (form.prepareSubmission.1, form.prepareSubmission.2.map SubmissionPreparation.transition)
  | .prepareAdvisorySubmission =>
    outcome (Failure.operationError nofun) (form.prepareAdvisorySubmission.1,
      form.prepareAdvisorySubmission.2.map AdvisorySubmissionPreparation.transition)

end Form

/-- Forms as they are built, and any well-formed operation on them. -/
def formSystem : TransitionSystem Form WellFormedOperation where
  init form := ∃ (builder : FormBuilder) (id : Nat), builder.formData.WF ∧
    builder.build id = .ok form
  step form operation := (form.step operation.1).1

end Schemaform
