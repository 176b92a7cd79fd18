import Schemaform.Json.Pointer

/-!
# Limits

Resource limits on JSON input and on a running form.

* `checkInputValue`: the scan of `limits.rs`, values in document order, with running node and
  member counts.
* `FormDataLimits`: the configuration of a form.
* `ResourceLimitError`: a violated bound with its phase and location.
-/

namespace Schemaform

structure InputLimits where
  depth : Nat
  nodes : Nat
  members : Nat
  collectionLength : Nat
  scalarBytes : Nat
deriving Repr

structure InputLimitError where
  dimension : String
  maximum : Nat
  observed : Nat
  pointer : Pointer
deriving DecidableEq, Repr

/-- Running totals of one scan. -/
structure InputMetrics where
  nodes : Nat
  members : Nat
deriving Repr

def checkBound (dimension : String) (maximum observed : Nat) (pointer : Pointer) :
    Except InputLimitError Unit :=
  if observed > maximum then .error ⟨dimension, maximum, observed, pointer⟩ else .ok ()

/-- What the scan does on reaching a value, before its children. -/
def enterValue (limits : InputLimits) (depth : Nat) (pointer : Pointer) (metrics : InputMetrics)
    (value : Value) : Except InputLimitError InputMetrics := do
  let nodes := metrics.nodes + 1
  checkBound "depth" limits.depth depth pointer
  checkBound "nodes" limits.nodes nodes pointer
  let scalar (bytes : Nat) : Except InputLimitError InputMetrics := do
    checkBound "scalar_bytes" limits.scalarBytes bytes pointer
    pure { metrics with nodes }
  match value with
  | .null => scalar 4
  | .bool b => scalar (if b then 4 else 5)
  | .number literal => scalar literal.utf8ByteSize
  | .string s => scalar s.utf8ByteSize
  | .array values =>
    checkBound "collection_length" limits.collectionLength values.length pointer
    pure { metrics with nodes }
  | .object values =>
    let members := metrics.members + values.length
    checkBound "members" limits.members members pointer
    checkBound "collection_length" limits.collectionLength values.length pointer
    pure { nodes, members }

mutual

def scanValue (limits : InputLimits) (depth : Nat) (pointer : Pointer) (metrics : InputMetrics) :
    Value → Except InputLimitError InputMetrics
  | .array values => do
    let metrics ← enterValue limits depth pointer metrics (.array values)
    scanItems limits depth pointer 0 metrics values
  | .object values => do
    let metrics ← enterValue limits depth pointer metrics (.object values)
    scanMembers limits depth pointer metrics values
  | value => enterValue limits depth pointer metrics value

def scanItems (limits : InputLimits) (depth : Nat) (pointer : Pointer) (nextIndex : Nat)
    (metrics : InputMetrics) : List Value → Except InputLimitError InputMetrics
  | [] => pure metrics
  | child :: children => do
    let metrics ← scanValue limits (depth + 1) (pointer ++ [Nat.repr nextIndex]) metrics child
    scanItems limits depth pointer (nextIndex + 1) metrics children

def scanMembers (limits : InputLimits) (depth : Nat) (pointer : Pointer) (metrics : InputMetrics) :
    List (String × Value) → Except InputLimitError InputMetrics
  | [] => pure metrics
  | (key, child) :: children => do
    checkBound "scalar_bytes" limits.scalarBytes key.utf8ByteSize (pointer ++ [key])
    let metrics ← scanValue limits (depth + 1) (pointer ++ [key]) metrics child
    scanMembers limits depth pointer metrics children

end

def checkInputValue (value : Value) (limits : InputLimits) : Except InputLimitError Unit := do
  let _ ← scanValue limits 0 [] ⟨0, 0⟩ value

/-! ## A form's limits -/

structure FormDataLimits where
  maxDepth : Nat := 32
  maxNodes : Nat := 65536
  maxMembers : Nat := 65536
  maxCollectionLength : Nat := 1024
  maxScalarBytes : Nat := 256 * 1024
  maxFormTreeNodes : Nat := 65536
  maxRepeatedItems : Nat := 16384
  maxActiveEditBuffers : Nat := 1024
  maxEditBufferBytes : Nat := 512 * 1024
  maxTotalEditBufferBytes : Nat := 4 * 1024 * 1024
  maxHostOperationsPerTransaction : Nat := 256
  maxRetainedValidationFindings : Nat := 256
  maxValidationParameterBytes : Nat := 4096
  maxCanonicalIntegerDigits : Nat := 4096
deriving Repr

def FormDataLimits.inputLimits (limits : FormDataLimits) : InputLimits where
  depth := limits.maxDepth
  nodes := limits.maxNodes
  members := limits.maxMembers
  collectionLength := limits.maxCollectionLength
  scalarBytes := limits.maxScalarBytes

inductive ResourceLimitPhase where
  | construction
  | operation
deriving DecidableEq, Repr

structure ResourceLimitError where
  phase : ResourceLimitPhase
  dimension : String
  maximum : Nat
  observed : Nat
  location : Pointer
deriving DecidableEq, Repr

def InputLimitError.toResourceLimit (error : InputLimitError) (phase : ResourceLimitPhase)
    (prefixPointer : Pointer) : ResourceLimitError :=
  ⟨phase, error.dimension, error.maximum, error.observed, prefixPointer ++ error.pointer⟩

end Schemaform
