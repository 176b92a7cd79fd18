import Schemaform.Form.Transition

/-!
# Form.Lifecycle

Operations on a whole form.

* `checkRuntimeFormData`, `checkRuntimeInputValue`: resource limits before a commit.
* `FormBuilder.build`: a new form.
* `reset`, `reinitialize`, `setFindingVisibility`, `setReadOnly`.
* `finalizeSubmission` and the gated and advisory submissions that share it.
-/

namespace Schemaform

/-! ## Resource limits -/

def checkFormTree (definition : FormDefinition) (formData : Value) (limits : FormDataLimits)
    (phase : ResourceLimitPhase) : Except ResourceLimitError Unit :=
  let (formTreeNodes, repeatedItems) := definition.inner.initialTreeMetrics formData
  if repeatedItems > limits.maxRepeatedItems then
    .error ⟨phase, "repeated_items", limits.maxRepeatedItems, repeatedItems, []⟩
  else if formTreeNodes > limits.maxFormTreeNodes then
    .error ⟨phase, "form_tree_nodes", limits.maxFormTreeNodes, formTreeNodes, []⟩
  else .ok ()

def checkInput (value : Value) (limits : FormDataLimits) (phase : ResourceLimitPhase)
    (binding : Pointer) : Except ResourceLimitError Unit :=
  match checkInputValue value limits.inputLimits with
  | .error error => .error (error.toResourceLimit phase binding)
  | .ok () => .ok ()

def checkRuntimeFormData (definition : FormDefinition) (formData : Value)
    (limits : FormDataLimits) : Except ResourceLimitError Unit := do
  checkInput formData limits .operation []
  checkFormTree definition formData limits .operation

def checkRuntimeInputValue (value : Value) (binding : Pointer) (limits : FormDataLimits) :
    Except ResourceLimitError Unit :=
  checkInput value limits .operation binding

/-! ## Construction -/

inductive FormBuildError where
  | formDataMustBeObject
  | resourceLimit (error : ResourceLimitError)
deriving DecidableEq, Repr

inductive ReinitializeError where
  | invalidFormData
  | resourceLimit (error : ResourceLimitError)
deriving DecidableEq, Repr

/-- How a call ends early: with an error it returns, or with the message it panics with. -/
inductive Failure (ε : Type) where
  | error (error : ε)
  | panic (message : String)
deriving DecidableEq, Repr

/-- A call that keeps its error to itself changes nothing on the way there. -/
def attempt {α β ε : Type} (form : Form) (check : Except ε α) (next : α → Form × Except ε β) :
    Form × Except ε β :=
  match check with
  | .error error => (form, .error error)
  | .ok a => next a

namespace Form

def validate (definition : FormDefinition) (limits : FormDataLimits) (formData : Value) : Outcome :=
  definition.inner.validator.validateWithLimits formData limits.maxRetainedValidationFindings
    limits.maxValidationParameterBytes

/-- `id` is drawn from the process-wide counter. -/
def new (id : Nat) (definition : FormDefinition) (formData : Value) (limits : FormDataLimits)
    (findingVisibility : FindingVisibilityPolicy) (externalFindingLimits : ExternalFindingLimits) :
    Except FormBuildError Form := do
  if !formData.isObject then throw .formDataMustBeObject
  (checkInput formData limits .construction []).mapError .resourceLimit
  (checkFormTree definition formData limits .construction).mapError .resourceLimit
  match definition.inner.engine.createForm formData with
  | .error _ => throw .formDataMustBeObject
  | .ok engine =>
    return {
      definition
      engine
      validation := validate definition limits engine.formData
      externalFindingBatches := []
      externalFindingLimits
      limits
      findingVisibility
      readOnly := false
      id }

end Form

structure FormBuilder where
  definition : FormDefinition
  formData : Value
  visibility : FindingVisibilityPolicy := {}
  externalFindingLimits : ExternalFindingLimits := {}
  limits : FormDataLimits := {}
  seedDefaults : Bool := false
  readOnly : Bool := false

def FormBuilder.build (builder : FormBuilder) (id : Nat) : Except FormBuildError Form := do
  let formData :=
    if builder.seedDefaults then builder.definition.inner.engine.seedDefaults builder.formData
    else builder.formData
  let form ← Form.new id builder.definition formData builder.limits builder.visibility
    builder.externalFindingLimits
  return { form with readOnly := builder.readOnly }

namespace Form

variable (form : Form)

def revalidate : Form :=
  { form with validation := validate form.definition form.limits form.formData }

def revalidateIfDataChanged (before : DataRevision) : Form :=
  if form.engine.dataRevision ≠ before.revision then form.revalidate else form

def clearExternalFindings : Form := { form with externalFindingBatches := [] }

/-- The facade's part of a committed edit: validation follows a data change, findings do not
survive it. -/
def settle (before : Revisions) : Form :=
  let form := form.revalidateIfDataChanged before.1
  if before.1 ≠ form.dataRevision then form.clearExternalFindings else form

def markStateChanged : Form := { form with engine := form.engine.markStateChanged }

/-! ## Reset, policies, reinitialization -/

def reset : Form × Transition :=
  let before := form.revisions
  let identitiesBefore := form.instanceIdentities
  let observationsBefore := form.nodeObservations
  let topologiesBefore := form.hostArrayTopologies
  let form := { form with engine := form.engine.reset }
  let form := form.revalidateIfDataChanged before.1
  let form :=
    if before.1 ≠ form.dataRevision then form.clearExternalFindings
    else form.rebaseExternalFindingsForTopologies topologiesBefore form.hostArrayTopologies .preserve
  let changed := form.changedNodes observationsBefore
  (form, form.topologyTransition before form.revisions identitiesBefore changed)

def setFindingVisibility (policy : FindingVisibilityPolicy) : Form × Transition :=
  let before := form.revisions
  let observationsBefore := form.nodeObservations
  let form :=
    if form.findingVisibility ≠ policy then
      { form with findingVisibility := policy }.markStateChanged
    else form
  (form, transition before form.revisions (form.changedNodes observationsBefore))

def setReadOnly (readOnly : Bool) : Form × Transition :=
  let before := form.revisions
  let observationsBefore := form.nodeObservations
  let form :=
    if form.readOnly ≠ readOnly then { form with readOnly }.markStateChanged else form
  (form, transition before form.revisions (form.changedNodes observationsBefore))

def reinitialize (formData : Value) : Form × Except ReinitializeError Transition :=
  if !formData.isObject then (form, .error .invalidFormData)
  else
    attempt form ((checkRuntimeFormData form.definition formData form.limits).mapError
      .resourceLimit) fun () =>
    let before := form.revisions
    let identitiesBefore := form.instanceIdentities
    let observationsBefore := form.nodeObservations
    match form.engine.reinitialize formData with
    | (engine, .error _) => ({ form with engine }, .error .invalidFormData)
    | (engine, .ok ()) =>
      let form := { form with engine }.clearExternalFindings.revalidate
      let changed := form.changedNodes observationsBefore
      (form, .ok (form.topologyTransition before form.revisions identitiesBefore changed))

/-! ## Submission -/

end Form

inductive SubmissionBlocker where
  | parse (target : InstanceIdentity) (kind : Engine.ParseBlocker)
  | validation (finding : ValidationFinding)
  | validationFindingsTruncated (retained : Nat)
  | indeterminate (reason : IndeterminateReason)
  | capability (finding : CapabilityFinding)
  | external (source : String) (finding : ExternalFinding)
deriving DecidableEq, Repr

structure SubmissionSnapshot where
  formData : Value
  dataRevision : DataRevision
deriving DecidableEq, Repr

inductive SubmissionOutcome where
  | ready (snapshot : SubmissionSnapshot)
  | blocked (blockers : List SubmissionBlocker)
deriving DecidableEq, Repr

structure SubmissionPreparation where
  transition : Transition
  outcome : SubmissionOutcome
deriving DecidableEq, Repr

structure AdvisorySubmission where
  formData : Value
  dataRevision : DataRevision
  findings : List SubmissionBlocker
deriving DecidableEq, Repr

structure AdvisorySubmissionPreparation where
  transition : Transition
  submission : AdvisorySubmission
deriving DecidableEq, Repr

def engineParseBlockers : Except (List Engine.SubmissionBlocker) Engine.Form.SubmissionSnapshot →
    List (Pointer × Engine.ParseBlocker)
  | .ok _ => []
  | .error blockers => blockers.filterMap fun
    | .parse binding reason => some (binding, reason)
    | .external _ _ _ => none

def validationBlockers : Outcome → List SubmissionBlocker
  | .valid => []
  | .invalid findings truncated =>
    findings.map .validation ++
      if truncated then [.validationFindingsTruncated findings.length] else []
  | .indeterminate reason => [.indeterminate reason]

namespace Form

variable (form : Form)

def capabilityBlockers : List SubmissionBlocker :=
  (form.definition.inner.capabilityFindings.filter CapabilityFinding.isBlocking).map .capability

def externalBlockers : List SubmissionBlocker :=
  form.externalFindingBatches.flatMap fun batch =>
    (batch.findings.filter (·.blocking)).map (.external batch.source)

/-- Finalized buffers and every blocker, by category. -/
def finalizeSubmission : Form × Except (Failure Empty) (List SubmissionBlocker) :=
  let (engine, preparation) := form.engine.prepareSubmission
  let form := { form with engine }
  let blockers :=
    (engineParseBlockers preparation).filterMap (fun (binding, reason) =>
      (form.identityForBinding binding).map fun target => SubmissionBlocker.parse target reason) ++
    validationBlockers form.validation ++ form.capabilityBlockers ++ form.externalBlockers
  if !preparation.isOk && blockers.isEmpty then
    (form, .error (.panic "an engine submission refusal reports at least one blocker"))
  else (form, .ok blockers)

def prepareSubmission : Form × Except (Failure Empty) SubmissionPreparation :=
  let before := form.revisions
  let observationsBefore := form.nodeObservations
  match form.finalizeSubmission with
  | (form, .error e) => (form, .error e)
  | (form, .ok blockers) =>
    let outcome : SubmissionOutcome :=
      if blockers.isEmpty then .ready ⟨form.formData, form.dataRevision⟩ else .blocked blockers
    (form, .ok ⟨transition before form.revisions (form.changedNodes observationsBefore), outcome⟩)

def prepareAdvisorySubmission : Form × Except (Failure Empty) AdvisorySubmissionPreparation :=
  let before := form.revisions
  let observationsBefore := form.nodeObservations
  match form.finalizeSubmission with
  | (form, .error e) => (form, .error e)
  | (form, .ok findings) =>
    let submission : AdvisorySubmission := ⟨form.formData, form.dataRevision, findings⟩
    (form, .ok ⟨transition before form.revisions (form.changedNodes observationsBefore), submission⟩)

end Form

end Schemaform
