import Schemaform.Form.Host

/-!
# Form.External

External findings: batches of untrusted input, bounded before they are stored.

* `findingSizes`, `addBytes`: encoded sizes, counted up to a maximum.
* `Form.applyExternalFindings`: replace one source's batch.
-/

namespace Schemaform

/-! ## Sizes -/

/-- `Err` with the bytes counted when the maximum is first exceeded. -/
def addBytes (maximum : Nat) : Nat → List Nat → Except Nat Nat
  | bytes, [] => .ok bytes
  | bytes, additional :: sizes =>
    if bytes + additional > maximum then .error (bytes + additional)
    else addBytes maximum (bytes + additional) sizes

def characterSize (c : Char) : Nat :=
  if c = '"' ∨ c = '\\' ∨ c = '\x08' ∨ c = '\t' ∨ c = '\n' ∨ c = '\x0c' ∨ c = '\r' then 2
  else if c.toNat < 32 then 6
  else c.utf8Size

def stringSizes (s : String) : List Nat := 2 :: s.toList.map characterSize

mutual

/-- The sizes of a value's encoding, in the order they are counted. -/
def valueSizes : Value → List Nat
  | .null => [4]
  | .bool true => [4]
  | .bool false => [5]
  | .number literal => [literal.utf8ByteSize]
  | .string s => stringSizes s
  | .array values => (2 + (values.length - 1)) :: itemSizes values
  | .object values => (2 + (values.length - 1) + values.length) :: memberSizes values

def itemSizes : List Value → List Nat
  | [] => []
  | value :: values => valueSizes value ++ itemSizes values

def memberSizes : List (String × Value) → List Nat
  | [] => []
  | (key, value) :: values => stringSizes key ++ (valueSizes value ++ memberSizes values)

end

def findingSizes (finding : ExternalFinding) : List Nat :=
  finding.code.utf8ByteSize :: finding.instanceLocation.text.utf8ByteSize ::
    valueSizes finding.parameters

def batchSizes (batch : ExternalFindingBatch) : List Nat :=
  batch.source.utf8ByteSize :: batch.findings.flatMap findingSizes

def incomingExternalFindingBatchBytes (batch : ExternalFindingBatch) (maximum : Nat) :
    Except Nat Nat := addBytes maximum 0 (batchSizes batch)

def activeExternalFindingBatchBytes (batch : ExternalFindingBatch) (maximum : Nat) :
    Except Nat Nat :=
  if batch.findings.isEmpty then .ok 0 else addBytes maximum 0 (batchSizes batch)

/-! ## Batches -/

inductive ExternalFindingError where
  | staleRevision (current supplied : DataRevision)
  | resourceLimit (error : ResourceLimitError)
deriving DecidableEq, Repr

/-- `Vec::dedup`. -/
def dedupFindings (findings : List ExternalFinding) : List ExternalFinding :=
  findings.destutter (· ≠ ·)

def parameterDimension : String → String
  | "depth" => "external_finding_parameter_depth"
  | "nodes" => "external_finding_parameter_nodes"
  | "members" => "external_finding_parameter_nodes"
  | "collection_length" => "external_finding_parameter_collection_length"
  | "scalar_bytes" => "external_finding_parameter_scalar_bytes"
  | other => other

def ExternalFindingLimits.parameterLimits (limits : ExternalFindingLimits) : InputLimits where
  depth := limits.maxParameterDepth
  nodes := limits.maxParameterNodes
  members := limits.maxParameterNodes
  collectionLength := limits.maxParameterCollectionLength
  scalarBytes := limits.maxParameterScalarBytes

def externalLimit (dimension : String) (maximum observed : Nat) (location : Pointer) :
    Failure ExternalFindingError :=
  .error (.resourceLimit ⟨.operation, dimension, maximum, observed, location⟩)

def checkParameters (limits : ExternalFindingLimits) :
    List ExternalFinding → Except (Failure ExternalFindingError) Unit
  | [] => .ok ()
  | finding :: findings =>
    match checkInputValue finding.parameters limits.parameterLimits with
    | .error error => .error (externalLimit (parameterDimension error.dimension) error.maximum
        error.observed finding.instanceLocation)
    | .ok () => checkParameters limits findings

/-- Batches are kept in the order of their sources. -/
def sortBatches (batches : List ExternalFindingBatch) : List ExternalFindingBatch :=
  batches.insertionSort fun left right => (compare left.source right.source).isLE

/-- Bytes of the stored batches, `none` when one of them is over the limit by itself. -/
def retainedBytes (maximum : Nat) : List ExternalFindingBatch → Option Nat
  | [] => some 0
  | batch :: batches => do
    let bytes ← (activeExternalFindingBatchBytes batch maximum).toOption
    let rest ← retainedBytes maximum batches
    return bytes + rest

/-- The batches of the other sources. -/
def retainedBatches (batches : List ExternalFindingBatch) (source : String) :
    List ExternalFindingBatch :=
  match batches.findIdx? (·.source == source) with
  | some index => batches.eraseIdx index
  | none => batches

/-- The batches with one source's replaced, and whether that changes them. -/
def replaceBatch (batches : List ExternalFindingBatch) (batch : ExternalFindingBatch) :
    List ExternalFindingBatch × Bool :=
  match batches.findIdx? (·.source == batch.source) with
  | some index =>
    if batch.findings.isEmpty then (batches.eraseIdx index, true)
    else if batches[index]? = some batch then (batches, false)
    else (batches.set index batch, true)
  | none =>
    if batch.findings.isEmpty then (batches, false) else (sortBatches (batches ++ [batch]), true)

namespace Form

variable (form : Form)

/-- The batch as it will be stored, once every bound has been checked. -/
def checkExternalFindings (batch : ExternalFindingBatch) :
    Except (Failure ExternalFindingError) ExternalFindingBatch := do
  let limits := form.externalFindingLimits
  if batch.revision ≠ form.dataRevision then
    throw (.error (.staleRevision form.dataRevision batch.revision))
  if batch.findings.length > limits.maxIncomingFindings then
    throw (externalLimit "incoming_external_findings" limits.maxIncomingFindings
      batch.findings.length [])
  checkParameters limits batch.findings
  match incomingExternalFindingBatchBytes batch limits.maxIncomingBytes with
  | .error observed =>
    throw (externalLimit "incoming_external_finding_bytes" limits.maxIncomingBytes observed [])
  | .ok _ => pure ()
  let batch := { batch with findings := dedupFindings (sortExternalFindings batch.findings) }
  let retained := retainedBatches form.externalFindingBatches batch.source
  let observedCount := (retained.map (·.findings.length)).sum + batch.findings.length
  if observedCount > limits.maxActiveFindings then
    throw (externalLimit "active_external_findings" limits.maxActiveFindings observedCount [])
  match activeExternalFindingBatchBytes batch limits.maxActiveBytes with
  | .error observed =>
    throw (externalLimit "active_external_finding_bytes" limits.maxActiveBytes observed [])
  | .ok incomingBytes =>
    match retainedBytes limits.maxActiveBytes retained with
    | none => throw (.panic "stored external finding batches satisfy the active byte limit")
    | some retainedBytes =>
      let observedBytes := retainedBytes + incomingBytes
      if observedBytes > limits.maxActiveBytes then
        throw (externalLimit "active_external_finding_bytes" limits.maxActiveBytes observedBytes [])
      return batch

def applyExternalFindings (batch : ExternalFindingBatch) :
    Form × Except (Failure ExternalFindingError) Transition :=
  attempt form (form.checkExternalFindings batch) fun batch =>
  let before := form.revisions
  let findingsBefore := form.visibleExternalFindingsByNode
  let (externalFindingBatches, changed) := replaceBatch form.externalFindingBatches batch
  let form := { form with externalFindingBatches }
  let form := if changed then form.markStateChanged else form
  let changed := (findingsBefore.zip form.visibleExternalFindingsByNode).filterMap
    fun ((identity, beforeFindings), (_, afterFindings)) =>
      if beforeFindings != afterFindings then some identity else none
  (form, .ok (transition before form.revisions changed))

end Form

end Schemaform
