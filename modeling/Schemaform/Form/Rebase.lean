import Schemaform.Form.View

/-!
# Form.Rebase

External findings under a change of array topology that leaves the data as they are.

* `HostArrayTopology`: an array's items, as a host edits them.
* `rebasePointer`: a location carried from one subtree to another.
* `moveExternalFindings`: after two items changed places.
* `rebaseExternalFindingsForTopologies`: after any change of the items.
-/

namespace Schemaform

structure HostArrayTopology where
  binding : Pointer
  original : Option Value
  originalItems : List Engine.HostArrayItem
  items : List Engine.HostArrayItem
  authoritativeReplacement : Bool
deriving DecidableEq, Repr

inductive UnmatchedFinding where
  | preserve
  | remove
deriving DecidableEq, Repr

def rebasePointer (location source destination : Pointer) : Option Pointer :=
  if location.startsWith source then some (destination ++ location.drop source.length) else none

def sortExternalFindings (findings : List ExternalFinding) : List ExternalFinding :=
  findings.insertionSort fun left right => (compareExternalFindings left right).isLE

/-- Where a location below an array goes. -/
inductive Rebased where
  | elsewhere
  | moved (location : Pointer)
  | unmatched
deriving DecidableEq, Repr

/-- Look the location's item up among the new items of the array; `index` counts the old ones. -/
def rebaseInArray (array location : Pointer) (after : List Engine.HostArrayItem) :
    Nat → List Engine.HostArrayItem → Rebased
  | _, [] => .elsewhere
  | index, item :: items =>
    match rebasePointer location (Engine.arrayItemPointer array index) [] with
    | none => rebaseInArray array location after (index + 1) items
    | some relative =>
      match after.findIdx? (· == item) with
      | none => .unmatched
      | some newIndex => .moved (Engine.arrayItemPointer array newIndex ++ relative)

/-- The location after all topology changes, `none` for a finding that is dropped. -/
def rebaseLocation (unmatched : UnmatchedFinding) :
    List (HostArrayTopology × HostArrayTopology) → Pointer → Option Pointer
  | [], location => some location
  | (before, after) :: topologies, location =>
    match rebaseInArray before.binding location after.items 0 before.items with
    | .elsewhere => rebaseLocation unmatched topologies location
    | .moved location => rebaseLocation unmatched topologies location
    | .unmatched => if unmatched = .preserve then some location else none

def rebaseFinding (rebase : Pointer → Option Pointer) (finding : ExternalFinding) :
    Option ExternalFinding :=
  (rebase finding.instanceLocation).map fun location => { finding with instanceLocation := location }

/-- Every finding at its new location, each batch in order again. -/
def rebaseBatch (rebase : Pointer → Option Pointer) (batch : ExternalFindingBatch) :
    ExternalFindingBatch :=
  { batch with findings := sortExternalFindings (batch.findings.filterMap (rebaseFinding rebase)) }

/-- Two items of an array have changed places. -/
def swapLocation (source destination location : Pointer) : Pointer :=
  match rebasePointer location source destination with
  | some rebased => rebased
  | none => (rebasePointer location destination source).getD location

namespace Form

variable (form : Form)

def hostArrayTopologies : List HostArrayTopology :=
  form.definition.inner.engine.arrays.map fun array =>
    let items := ((form.engine.arrayItemIdentities array.binding).getD []).map
      Engine.HostArrayItem.existing
    { binding := array.binding
      original := array.binding.resolve form.formData
      originalItems := items
      items
      authoritativeReplacement := false }

def moveExternalFindings (array : Pointer) (source destination : Nat) : Form :=
  { form with
    externalFindingBatches := form.externalFindingBatches.map <| rebaseBatch fun location =>
      some (swapLocation (Engine.arrayItemPointer array source)
        (Engine.arrayItemPointer array destination) location) }

def rebaseExternalFindingsForTopologies (before after : List HostArrayTopology)
    (unmatched : UnmatchedFinding) : Form :=
  { form with
    externalFindingBatches := (form.externalFindingBatches.map <|
      rebaseBatch (rebaseLocation unmatched (before.zip after))).filter fun batch =>
        !batch.findings.isEmpty }

end Form

end Schemaform
