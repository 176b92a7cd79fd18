import Schemaform.Form.Rebase

/-!
# Form.Transition

What an operation reports: revisions before and after, nodes to reread and nodes gone.

* `changedNodes`: nodes whose observation differs.
* `userTransition`: the edit of one control.
* `hostChangedNodes`, `hostDirectlyChangedNodes`, `hostStructurallyChangedNodes`: host commits and
  array operations.
* `topologyTransition`: when the tree of instances may have changed.
-/

namespace Schemaform

abbrev Revisions := DataRevision × StateRevision

structure Transition where
  beforeData : DataRevision
  afterData : DataRevision
  beforeState : StateRevision
  afterState : StateRevision
  changed : List InstanceIdentity
  removed : List InstanceIdentity
deriving DecidableEq, Repr

namespace Form

variable (form : Form)

def transition (before after : Revisions) (changed : List InstanceIdentity) : Transition :=
  ⟨before.1, after.1, before.2, after.2, changed, []⟩

/-- The listed nodes that are there, and every node that was not there before. -/
def topologyTransition (before after : Revisions) (identitiesBefore changed : List InstanceIdentity) :
    Transition :=
  let identitiesAfter := form.instanceIdentities
  let changed := changed ++ identitiesAfter.filter fun identity => !identitiesBefore.contains identity
  { beforeData := before.1
    afterData := after.1
    beforeState := before.2
    afterState := after.2
    changed := (changed.filter identitiesAfter.contains).eraseDups
    removed := identitiesBefore.filter fun identity => !identitiesAfter.contains identity }

/-- Nodes whose observation is not the one before. -/
def changedNodes (before : List (InstanceIdentity × NodeObservation)) : List InstanceIdentity :=
  form.instanceIdentities.filter fun identity =>
    (form.nodeObservation identity).any fun after => before.lookup identity != some after

/-- The target, the nodes bound above it and everything below it. -/
def affectedByEdit (target : InstanceIdentity) : List InstanceIdentity :=
  Forest.dfs form.childrenOf form.treeFuel [target] ++
  match form.bindingOf target with
  | none => []
  | some targetBinding => form.instanceIdentities.filter fun identity =>
    (form.bindingOf identity).any fun binding =>
      targetBinding != binding && targetBinding.startsWith binding

/-- The trees before and after are walked together: a scalar edit leaves the tree as it is. -/
def userTransition (target : InstanceIdentity) (before : Revisions)
    (findingsBefore : List (InstanceIdentity × List ValidationFinding))
    (externalTargetsBefore : List InstanceIdentity) (after : Revisions) : Transition :=
  let dataChanged := before.1 != after.1
  let affected := form.affectedByEdit target ++ (if dataChanged then externalTargetsBefore else [])
  let changed := (findingsBefore.zip form.visibleValidationFindingsByNode).filterMap
    fun ((identity, beforeFindings), (_, afterFindings)) =>
      if identity == target && before != after || dataChanged && affected.contains identity ||
        beforeFindings != afterFindings then some identity else none
  transition before after changed

/-- Nodes listed by the operation, and nodes that show other validation findings. -/
def hostChangedNodes (directlyChanged : List InstanceIdentity) (before : Revisions)
    (findingsBefore : List (InstanceIdentity × List ValidationFinding)) (after : Revisions) :
    List InstanceIdentity :=
  if before = after then []
  else
    form.visibleValidationFindingsByNode.filterMap fun (identity, afterFindings) =>
      if directlyChanged.contains identity ||
          findingsBefore.lookup identity != some afterFindings then
        some identity
      else none

/-- Absent and present, or present and different. -/
def differsAt (binding : Pointer) (current candidate : Value) : Bool :=
  match binding.resolve current, binding.resolve candidate with
  | some current, some candidate => !jsonValuesEqual current candidate
  | none, none => false
  | _, _ => true

def hostDirectlyChangedNodes (candidate : Value) (writes : List Pointer) : List InstanceIdentity :=
  let clearedExternalLocations :=
    if jsonValuesEqual form.formData candidate then []
    else (form.externalFindingBatches.flatMap (·.findings)).map (·.instanceLocation)
  form.instanceIdentities.filter fun identity =>
    (form.bindingOf identity).any fun binding =>
      differsAt binding form.formData candidate ||
      binding.splitBack.any (fun (parent, _) =>
        (parent.resolve form.formData).any Value.isObject !=
          (parent.resolve candidate).any Value.isObject) ||
      writes.any (Engine.Form.intersects · binding) &&
        (form.engine.control binding).any Engine.ControlState.hasEditState ||
      clearedExternalLocations.contains binding

/-- An array with other items and the items that changed places. -/
def hostStructurallyChangedArray (array : Engine.ArrayDefinition) (topology : HostArrayTopology) :
    List InstanceIdentity :=
  let before := (form.engine.arrayItemIdentities array.binding).getD []
  if before.map .existing = topology.items then []
  else
    match form.identityForBinding array.binding with
    | none => []
    | some arrayIdentity =>
      arrayIdentity ::
        match form.definition.inner.arrayTemplate arrayIdentity.node with
        | none => []
        | some template =>
          topology.items.zipIdx.flatMap fun (item, newIndex) =>
            match item with
            | .fresh => []
            | .existing identity =>
              if before.findIdx? (· == identity) = some newIndex then []
              else form.itemSubtreeIdentities template (form.item identity)

def hostStructurallyChangedNodes (topologies : List HostArrayTopology) : List InstanceIdentity :=
  (form.definition.inner.engine.arrays.zip topologies).flatMap fun (array, topology) =>
    form.hostStructurallyChangedArray array topology

end Form

end Schemaform
