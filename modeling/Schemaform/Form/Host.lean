import Schemaform.Form.User

/-!
# Form.Host

Host transactions: a queue of operations on a candidate, committed as a whole or not at all.

* `HostTransaction`: the candidate with the writes and array topologies recorded along the way.
* `HostOperation`, `HostTransaction.apply`: one queued operation.
* `Form.tryTransact`, `Form.transact`: the commit.
-/

namespace Schemaform

inductive HostCommitError where
  | invalidOperation
  | resourceLimit (error : ResourceLimitError)
deriving DecidableEq, Repr

inductive TransactionError (ε : Type) where
  | closure (error : ε)
  | commit (error : HostCommitError)
deriving DecidableEq, Repr

structure HostTransaction where
  formId : Nat
  candidate : Value
  valid : Bool
  writes : List Pointer
  itemWrites : List Engine.HostItemWrite
  arrayTopologies : List HostArrayTopology
  operationCount : Nat
  maximumOperations : Nat
  commitError : Option HostCommitError

inductive HostOperation where
  | set (pointer : Pointer) (value : Value)
  | remove (pointer : Pointer)
  | replaceAll (value : Value)
  | appendItem (array : Pointer) (value : Value)
  | insertItemBefore (array : Pointer) (before : ItemIdentity) (value : Value)
  | removeItem (array : Pointer) (item : ItemIdentity)
  | moveItem (direction : Engine.ArrayMove) (array : Pointer) (item : ItemIdentity)
deriving DecidableEq, Repr

def optionalJsonValuesEqual : Option Value → Option Value → Bool
  | some left, some right => jsonValuesEqual left right
  | none, none => true
  | _, _ => false

/-- The items of a topology that a write reaches, with the part of the write below each. -/
def topologyItemWrites (write : Pointer) (array : Nat) (topology : HostArrayTopology) :
    List Engine.HostItemWrite :=
  if topology.binding.startsWith write then
    topology.items.filterMap fun
      | .fresh => none
      | .existing identity => some ⟨array, identity, []⟩
  else if !write.startsWith topology.binding then []
  else
    topology.items.zipIdx.filterMap fun (item, index) =>
      match item with
      | .fresh => none
      | .existing identity =>
        let itemBinding := Engine.arrayItemPointer topology.binding index
        if itemBinding.startsWith write then some ⟨array, identity, []⟩
        else if write.startsWith itemBinding then
          some ⟨array, identity, write.drop itemBinding.length⟩
        else none

/-- After an authoritative write: an array unlike the original is all fresh, a restored one has its
original items again. -/
def HostArrayTopology.update (topology : HostArrayTopology) (candidate : Value)
    (before : Option Value) : HostArrayTopology :=
  let after := topology.binding.resolve candidate
  if optionalJsonValuesEqual before after then topology
  else
    let authoritativeReplacement := !optionalJsonValuesEqual topology.original after
    { topology with
      authoritativeReplacement
      items :=
        if authoritativeReplacement then
          List.replicate ((after.bind Value.asArray).getD []).length .fresh
        else topology.originalItems }

namespace HostTransaction

variable (transaction : HostTransaction)

def invalidate : HostTransaction := { transaction with valid := false }

/-- Count the operation; `none` when it is not carried out. -/
def beginOperation : HostTransaction × Bool :=
  if !transaction.valid || transaction.commitError.isSome then (transaction, false)
  else
    let operationCount := transaction.operationCount + 1
    if operationCount > transaction.maximumOperations then
      ({ transaction with
          operationCount
          commitError := some (.resourceLimit ⟨.operation, "host_operations_per_transaction",
            transaction.maximumOperations, operationCount, []⟩) }, false)
    else ({ transaction with operationCount }, true)

def itemWritesFor (write : Pointer) : List Engine.HostItemWrite :=
  transaction.arrayTopologies.zipIdx.flatMap fun (topology, array) =>
    topologyItemWrites write array topology

/-- The topologies at or below the write, against the candidate it leaves. -/
def updateAuthoritativeArrays (write : Pointer) (candidate : Value) : List HostArrayTopology :=
  transaction.arrayTopologies.map fun topology =>
    if topology.binding.startsWith write then
      topology.update candidate (topology.binding.resolve transaction.candidate)
    else topology

/-- An authoritative write: `edit` is what it does to the candidate. -/
def authoritativeWrite (write : Pointer) (edit : Value → Option Value) : HostTransaction :=
  match edit transaction.candidate with
  | none => transaction.invalidate
  | some candidate =>
    { transaction with
      candidate
      arrayTopologies := transaction.updateAuthoritativeArrays write candidate
      itemWrites := transaction.itemWrites ++ transaction.itemWritesFor write
      writes := transaction.writes ++ [write] }

def set (pointer : Pointer) (value : Value) : HostTransaction :=
  transaction.authoritativeWrite pointer (setBoundValue pointer value)

def remove (pointer : Pointer) : HostTransaction :=
  transaction.authoritativeWrite pointer (takeBoundValue pointer)

def replaceAll (value : Value) : HostTransaction :=
  transaction.authoritativeWrite [] fun _ => some value

def arrayParts (array : Pointer) : Option (Nat × List Value × HostArrayTopology) := do
  let index ← transaction.arrayTopologies.findIdx? (·.binding == array)
  let values ← (array.resolve transaction.candidate).bind Value.asArray
  let topology ← transaction.arrayTopologies[index]?
  return (index, values, topology)

/-- The same edit of an array's values and of its items, at a place found among the items. -/
def editArray {α : Type} (array : Pointer) (place : List Engine.HostArrayItem → Option α)
    (editValues : α → List Value → List Value)
    (editItems : α → List Engine.HostArrayItem → List Engine.HostArrayItem) : HostTransaction :=
  match transaction.arrayParts array with
  | none => transaction.invalidate
  | some (index, values, topology) =>
    match place topology.items with
    | none => transaction.invalidate
    | some position =>
      if values.length ≠ topology.items.length then transaction.invalidate
      else
        match array.modify (Engine.editItems (editValues position)) transaction.candidate with
        | none => transaction.invalidate
        | some candidate =>
          { transaction with
            candidate
            arrayTopologies := transaction.arrayTopologies.modify index fun topology =>
              { topology with items := editItems position topology.items } }

def appendItem (array : Pointer) (value : Value) : HostTransaction :=
  transaction.editArray array (fun _ => some ()) (fun () values => values ++ [value])
    fun () items => items ++ [.fresh]

def insertItemBefore (array : Pointer) (before : ItemIdentity) (value : Value) : HostTransaction :=
  if before.form ≠ transaction.formId then transaction.invalidate
  else
    transaction.editArray array (fun items => items.findIdx? (· == .existing before.localId))
      (fun index values => values.insertIdx index value) fun index items =>
        items.insertIdx index .fresh

def removeItem (array : Pointer) (item : ItemIdentity) : HostTransaction :=
  if item.form ≠ transaction.formId then transaction.invalidate
  else
    transaction.editArray array (fun items => items.findIdx? (· == .existing item.localId))
      (fun index values => values.eraseIdx index) fun index items => items.eraseIdx index

def moveItem (direction : Engine.ArrayMove) (array : Pointer) (item : ItemIdentity) :
    HostTransaction :=
  if item.form ≠ transaction.formId then transaction.invalidate
  else
    transaction.editArray array
      (fun items => (items.findIdx? (· == .existing item.localId)).bind fun index =>
        (Engine.Form.moveDestination direction index items.length).map (index, ·))
      (fun (index, destination) values => ListEdit.swap values index destination)
      fun (index, destination) items => ListEdit.swap items index destination

def apply (operation : HostOperation) : HostTransaction :=
  let (transaction, begun) := transaction.beginOperation
  if !begun then transaction
  else
    match operation with
    | .set pointer value => transaction.set pointer value
    | .remove pointer => transaction.remove pointer
    | .replaceAll value => transaction.replaceAll value
    | .appendItem array value => transaction.appendItem array value
    | .insertItemBefore array before value => transaction.insertItemBefore array before value
    | .removeItem array item => transaction.removeItem array item
    | .moveItem direction array item => transaction.moveItem direction array item

end HostTransaction

namespace Form

variable (form : Form)

def hostTransaction : HostTransaction where
  formId := form.id
  candidate := form.formData
  valid := true
  writes := []
  itemWrites := []
  arrayTopologies := form.hostArrayTopologies
  operationCount := 0
  maximumOperations := form.limits.maxHostOperationsPerTransaction
  commitError := none

/-- The candidate of a finished queue, as it would be committed. -/
def hostCandidate (transaction : HostTransaction) : Except HostCommitError Value :=
  match transaction.commitError with
  | some error => .error error
  | none =>
    if !transaction.valid || !transaction.candidate.isObject then .error .invalidOperation
    else
      match checkRuntimeFormData form.definition transaction.candidate form.limits with
      | .error error => .error (.resourceLimit error)
      | .ok () => .ok (preserveSemanticallyEqualValues form.formData transaction.candidate)

def hostArrayChange (topology : HostArrayTopology) : Engine.HostArrayChange :=
  if topology.authoritativeReplacement then .replace else .preserve topology.items

def commitHost (transaction : HostTransaction) (candidate : Value) :
    Form × Except HostCommitError Transition :=
  let before := form.revisions
  let identitiesBefore := form.instanceIdentities
  let findingsBefore := form.visibleValidationFindingsByNode
  let topologiesBefore := form.hostArrayTopologies
  let topologies := transaction.arrayTopologies
  let dataChanged := !jsonValuesEqual form.formData candidate
  let directlyChanged := form.hostDirectlyChangedNodes candidate transaction.writes ++
    form.hostStructurallyChangedNodes topologies
  match form.engine.applyHostTransaction candidate transaction.writes
      (topologies.map hostArrayChange) transaction.itemWrites with
  | (engine, .error _) => ({ form with engine }, .error .invalidOperation)
  | (engine, .ok ()) =>
    let form := { form with engine }
    let form :=
      if dataChanged then
        { form with validation := validate form.definition form.limits candidate
          }.clearExternalFindings
      else form.rebaseExternalFindingsForTopologies topologiesBefore topologies .remove
    let changed := form.hostChangedNodes directlyChanged before findingsBefore form.revisions
    (form, .ok (form.topologyTransition before form.revisions identitiesBefore changed))

/-- The closure has queued its operations and returned. -/
def tryTransact {ε : Type} (operations : List HostOperation) (closure : Except ε Unit) :
    Form × Except (TransactionError ε) Transition :=
  let transaction := operations.foldl HostTransaction.apply form.hostTransaction
  attempt form (closure.mapError .closure) fun () =>
  attempt form ((form.hostCandidate transaction).mapError .commit) fun candidate =>
  match form.commitHost transaction candidate with
  | (form, result) => (form, result.mapError .commit)

/-- The closure cannot fail. -/
def transact (operations : List HostOperation) : Form × Except HostCommitError Transition :=
  match form.tryTransact operations (.ok () : Except Empty Unit) with
  | (form, .ok transition) => (form, .ok transition)
  | (form, .error (.commit error)) => (form, .error error)

end Form

end Schemaform
