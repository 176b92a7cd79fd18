import Schemaform.Engine.Buffered
import Schemaform.Form.Reachable
import Schemaform.Form.Topology

/-!
# Form.Paths

The same array steps taken by the user one by one and by a host in one transaction.

* `ArrayStep`: append, insert before, remove and move, with the operation each is on either path.
* `InStep`: the engine after the user's steps and the queue after the host's.
* `paths_agree`: both paths end in equal data and the same items, up to the identities of new ones.
-/

namespace Schemaform

open Engine ListEdit

inductive ArrayStep where
  | append
  | insertBefore (item : ItemIdentity)
  | remove (item : ItemIdentity)
  | move (direction : ArrayMove) (item : ItemIdentity)
deriving DecidableEq, Repr

def ArrayStep.userOperation (array : InstanceIdentity) : ArrayStep → Operation
  | .append => .appendItem array
  | .insertBefore item => .insertItemBefore array item
  | .remove item => .removeItem array item
  | .move direction item => .moveItem direction array item

def ArrayStep.hostOperation (array : Pointer) (seed : Value) : ArrayStep → HostOperation
  | .append => .appendItem array seed
  | .insertBefore item => .insertItemBefore array item seed
  | .remove item => .removeItem array item
  | .move direction item => .moveItem direction array item

/-- One step after the other, as long as they succeed. -/
def Form.takeSteps (array : InstanceIdentity) : List ArrayStep → Form → Option Form
  | [], form => some form
  | step :: steps, form =>
    match form.step (step.userOperation array) with
    | (form, .ok _) => takeSteps array steps form
    | (_, .error _) => none

/-! ## Queued steps -/

namespace HostTransaction

variable {transaction : HostTransaction}

/-- A queue is still good after an operation only if the operation was carried out. -/
theorem apply_begun {operation : HostOperation} (hvalid : (transaction.apply operation).valid = true)
    (herror : (transaction.apply operation).commitError = none) :
    transaction.valid = true ∧ transaction.commitError = none ∧ transaction.beginOperation =
      ({ transaction with operationCount := transaction.operationCount + 1 }, true) := by
  unfold apply at hvalid herror
  dsimp only at hvalid herror
  by_cases hstopped : (!transaction.valid || transaction.commitError.isSome) = true
  · have hbegin : transaction.beginOperation = (transaction, false) := by
      rw [beginOperation, if_pos hstopped]
    rw [hbegin] at hvalid herror
    simp only [Bool.not_false, if_true] at hvalid herror
    rw [hvalid, herror] at hstopped
    cases hstopped
  · have hgood : transaction.valid = true ∧ transaction.commitError = none := by
      simpa using hstopped
    by_cases hcount : transaction.operationCount + 1 > transaction.maximumOperations
    · have hbegin := beginOperation.eq_1 transaction
      rw [if_neg hstopped] at hbegin
      dsimp only at hbegin
      rw [if_pos hcount] at hbegin
      rw [hbegin] at herror
      simp at herror
    · refine ⟨hgood.1, hgood.2, ?_⟩
      rw [beginOperation, if_neg hstopped]
      dsimp only
      rw [if_neg hcount]

theorem editArray_ok {α : Type} {array : Pointer} {place : List HostArrayItem → Option α}
    {editValues : α → List Value → List Value}
    {editEntries : α → List HostArrayItem → List HostArrayItem}
    (h : (transaction.editArray array place editValues editEntries).valid = true) :
    ∃ index values topology position candidate,
      transaction.arrayParts array = some (index, values, topology) ∧
      place topology.items = some position ∧
      array.modify (Engine.editItems (editValues position)) transaction.candidate =
        some candidate ∧
      transaction.editArray array place editValues editEntries = { transaction with
        candidate
        arrayTopologies := transaction.arrayTopologies.modify index fun topology =>
          { topology with items := editEntries position topology.items } } := by
  unfold editArray at h ⊢
  cases hparts : transaction.arrayParts array with
  | none => rw [hparts] at h; cases h
  | some parts =>
    obtain ⟨index, values, topology⟩ := parts
    rw [hparts] at h
    dsimp only at h ⊢
    cases hplace : place topology.items with
    | none => rw [hplace] at h; cases h
    | some position =>
      rw [hplace] at h
      dsimp only at h ⊢
      split at h
      · cases h
      · rename_i hlen
        rw [if_neg hlen]
        split at h
        · cases h
        · rename_i candidate hm
          exact ⟨index, values, topology, position, candidate, rfl, hplace, hm, rfl⟩

end HostTransaction

/-! ## Both paths in step -/

/-- A topology entry and the user's item: an item of the array before, or a new one. -/
def Stands (before : ArrayState) (next : Nat) : HostArrayItem → ArrayItemState → Prop
  | .existing identity, item => item ∈ before.items ∧ item.identity = identity
  | .fresh, item => next ≤ item.identity

/-- The engine after some of the user's steps and the queue after the same of the host's. -/
structure InStep (form : Engine.Form) (formData : Value) (index : Nat) (before : ArrayState)
    (engine : Engine.Form) (transaction : HostTransaction) : Prop where
  data : transaction.candidate = engine.formData
  writes : transaction.writes = []
  itemWrites : transaction.itemWrites = []
  next_le : form.nextItemIdentity ≤ engine.nextItemIdentity
  rows : ∃ items entries,
    engine.arrays = form.arrays.modify index (fun array => { array with items }) ∧
    transaction.arrayTopologies = (form.arrays.map (originalTopology formData)).modify index
      (fun topology => { topology with items := entries }) ∧
    List.Forall₂ (Stands before form.nextItemIdentity) entries items

section InStep

variable {form engine engine' : Engine.Form} {formData : Value} {index : Nat} {before : ArrayState}
  {transaction : HostTransaction} {binding : Pointer}

theorem modify_self {α : Type} {l : List α} {i : Nat} {a : α} (h : l[i]? = some a) {f : α → α}
    (hf : f a = a) : l.modify i f = l := by
  obtain ⟨l₁, l₂, hl, hm⟩ := Engine.Form.modify_split h f
  rw [hm, hf, hl]

/-- Nothing queued and nothing done. -/
theorem inStep_refl (hat : form.arrays[index]? = some before)
    (hc : transaction.candidate = form.formData) (hw : transaction.writes = [])
    (hi : transaction.itemWrites = [])
    (ht : transaction.arrayTopologies = form.arrays.map (originalTopology formData)) :
    InStep form formData index before form transaction := by
  refine ⟨hc, hw, hi, Nat.le_refl _, before.items, before.identities.map .existing, ?_, ?_, ?_⟩
  · exact (modify_self hat rfl).symm
  · rw [ht]
    exact (modify_self (getElem?_of_map hat) rfl).symm
  · rw [ArrayState.identities, List.map_map, List.forall₂_map_left_iff, List.forall₂_same]
    exact fun item hitem => ⟨hitem, rfl⟩

theorem findIdx?_key {α κ : Type} [BEq κ] (key : α → κ) (k : κ) (l : List α) :
    l.findIdx? (fun a => key a == k) = (l.map key).findIdx? (· == k) := by
  rw [List.findIdx?_map]
  rfl

theorem arrayIndex_eq (form : Engine.Form) (binding : Pointer) : form.arrayIndex binding =
    (form.arrays.map (·.definition.binding)).findIdx? (· == binding) := findIdx?_key _ _ _

/-- Both paths find the same array, with corresponding items. -/
theorem InStep.parts (h : InStep form formData index before engine transaction)
    (hat : form.arrays[index]? = some before) (hindex : form.arrayIndex binding = some index)
    {i j : Nat} {array : ArrayState} {values : List Value} {topology : HostArrayTopology}
    (hi : engine.arrayIndex binding = some i) (ha : engine.array binding = some array)
    (hp : transaction.arrayParts binding = some (j, values, topology)) :
    i = index ∧ j = index ∧ array.definition = before.definition ∧
      List.Forall₂ (Stands before form.nextItemIdentity) topology.items array.items := by
  obtain ⟨items, entries, harrays, htopologies, hrel⟩ := h.rows
  rw [arrayIndex_eq] at hindex
  have hiindex : i = index := by
    have hkeys : engine.arrays.map (·.definition.binding) =
        form.arrays.map (·.definition.binding) := by
      rw [harrays]
      refine map_modify ?_ index form.arrays
      intro _
      rfl
    rw [arrayIndex_eq, hkeys, hindex] at hi
    exact (Option.some.inj hi).symm
  obtain ⟨j', hj, _, _, topology', ht, he⟩ : ∃ j',
      transaction.arrayTopologies.findIdx? (·.binding == binding) = some j' ∧ ∃ values',
      ((binding.resolve transaction.candidate).bind Value.asArray) = some values' ∧
      ∃ topology', transaction.arrayTopologies[j']? = some topology' ∧
        (j', values', topology') = (j, values, topology) := by
    simpa only [HostTransaction.arrayParts, Option.bind_eq_bind, Option.bind_eq_some_iff,
      Option.pure_def, Option.some.injEq] using hp
  cases he
  have hjindex : j = index := by
    have hkeys : transaction.arrayTopologies.map (·.binding) =
        form.arrays.map (·.definition.binding) := by
      rw [htopologies]
      refine (map_modify ?_ index _).trans ?_
      · intro _
        rfl
      · rw [List.map_map]
        rfl
    rw [findIdx?_key, hkeys, hindex] at hj
    exact (Option.some.inj hj).symm
  subst hiindex hjindex
  have hat' := (Engine.Form.array_at hi ha).1
  rw [harrays, List.getElem?_modify, hat] at hat'
  rw [htopologies, List.getElem?_modify, getElem?_of_map hat] at ht
  simp only [if_true, Option.map_eq_map, Option.map_some, Option.some.injEq] at hat' ht
  subst hat' ht
  exact ⟨rfl, rfl, rfl, hrel⟩

/-- The same edit of the values, and corresponding edits of the items. -/
theorem InStep.edited (h : InStep form formData index before engine transaction)
    {array : ArrayState} {editValues : List Value → List Value} {items' : List ArrayItemState}
    {editEntries : List HostArrayItem → List HostArrayItem} {candidate : Value} {count : Nat}
    {topology : HostArrayTopology}
    (hs : engine.ItemsStep engine' binding index array editValues items')
    (ht : transaction.arrayTopologies[index]? = some topology)
    (hm : binding.modify (editItems editValues) transaction.candidate = some candidate)
    (hrel : List.Forall₂ (Stands before form.nextItemIdentity) (editEntries topology.items)
      items') :
    InStep form formData index before engine' { transaction with
      operationCount := count
      candidate
      arrayTopologies := transaction.arrayTopologies.modify index fun topology =>
        { topology with items := editEntries topology.items } } := by
  obtain ⟨items, entries, harrays, htopologies, _⟩ := h.rows
  have hdata := hs.data
  rw [(Engine.Form.array_mem hs.array_eq).2, ← h.data, hm] at hdata
  refine ⟨Option.some.inj hdata, h.writes, h.itemWrites, h.next_le.trans hs.next_le, items',
    editEntries topology.items, ?_, ?_, hrel⟩
  · rw [hs.arrays, harrays, List.modify_modify_eq]
    rfl
  · have hentries : topology.items = entries := by
      rw [htopologies, List.getElem?_modify] at ht
      obtain ⟨original, _, rfl⟩ := Option.map_eq_some_iff.mp ht
      rw [if_pos rfl]
    dsimp only
    rw [htopologies, List.modify_modify_eq, hentries]
    rfl

theorem findIdx?_rel {α β : Type} {R : α → β → Prop} {p : α → Bool} {q : β → Bool} {l : List α}
    {m : List β} (h : List.Forall₂ R l m) (hpq : ∀ a b, R a b → p a = q b) :
    l.findIdx? p = m.findIdx? q := by
  induction h with
  | nil => rfl
  | cons hab _ ih => rw [List.findIdx?_cons, List.findIdx?_cons, hpq _ _ hab, ih]

/-- An item of the array before is found at one place on both paths. -/
theorem findIdx?_stands {entries : List HostArrayItem} {items : List ArrayItemState} {n : Nat}
    (hrel : List.Forall₂ (Stands before n) entries items)
    (hlt : ∀ i ∈ before.identities, i < n) {identity position : Nat}
    (h : entries.findIdx? (· == .existing identity) = some position) :
    items.findIdx? (·.identity == identity) = some position := by
  obtain ⟨entry, hentry, he⟩ := Engine.Form.findIdx?_some h
  obtain rfl := eq_of_beq he
  have hidentity : identity < n := by
    have hpart := forall₂_getElem? hrel position
    rw [hentry] at hpart
    generalize items[position]? = item at hpart
    cases hpart with
    | some hstands => exact hlt identity (hstands.2 ▸ List.mem_map_of_mem hstands.1)
  rw [← h]
  refine (findIdx?_rel hrel fun entry item hstands => ?_).symm
  cases entry with
  | existing other =>
    rw [hstands.2, Bool.eq_iff_iff, beq_iff_eq, beq_iff_eq, HostArrayItem.existing.injEq]
  | fresh =>
    have hne : item.identity ≠ identity := by
      have : n ≤ item.identity := hstands
      omega
    rw [Bool.eq_iff_iff, beq_iff_eq, beq_iff_eq]
    exact ⟨nofun, fun heq => absurd heq hne⟩

/-- The engine operation of a step. -/
def ArrayStep.Runs (step : ArrayStep) (binding : Pointer) (engine engine' : Engine.Form) : Prop :=
  match step with
  | .append => ∃ item, engine.appendArrayItem binding = (engine', .ok item)
  | .insertBefore item =>
    ∃ inserted, engine.insertArrayItemBefore binding item.localId = (engine', .ok inserted)
  | .remove item => ∃ removed, engine.removeArrayItem binding item.localId = (engine', .ok removed)
  | .move direction item =>
    ∃ moved, Engine.Form.moveArrayItem direction engine binding item.localId = (engine', .ok moved)

theorem InStep.editArray {α : Type} {place : List HostArrayItem → Option α}
    {editValues : α → List Value → List Value}
    {editEntries : α → List HostArrayItem → List HostArrayItem} {count i : Nat}
    {array : ArrayState} {values : List Value → List Value} {items' : List ArrayItemState}
    (h : InStep form formData index before engine transaction)
    (hat : form.arrays[index]? = some before) (hindex : form.arrayIndex binding = some index)
    (hs : engine.ItemsStep engine' binding i array values items')
    (hvalid : ({ transaction with operationCount := count }.editArray binding place editValues
      editEntries).valid = true)
    (hedit : ∀ entries position, array.definition = before.definition →
      List.Forall₂ (Stands before form.nextItemIdentity) entries array.items →
      place entries = some position → editValues position = values ∧
        List.Forall₂ (Stands before form.nextItemIdentity) (editEntries position entries) items') :
    InStep form formData index before engine' ({ transaction with
      operationCount := count }.editArray binding place editValues editEntries) := by
  obtain ⟨j, current, topology, position, candidate, hparts, hplace, hm, heq⟩ :=
    HostTransaction.editArray_ok hvalid
  have hparts : transaction.arrayParts binding = some (j, current, topology) := hparts
  obtain ⟨hi, hj, hdefinition, hrel⟩ := h.parts hat hindex hs.index_eq hs.array_eq hparts
  rw [hi] at hs
  rw [hj] at hparts heq
  obtain ⟨rfl, hrel'⟩ := hedit topology.items position hdefinition hrel hplace
  have ht : transaction.arrayTopologies[index]? = some topology := by
    simp only [HostTransaction.arrayParts, Option.bind_eq_bind, Option.bind_eq_some_iff] at hparts
    obtain ⟨_, _, _, _, _, ht, he⟩ := hparts
    cases he
    exact ht
  rw [heq]
  exact h.edited hs ht hm hrel'

/-- One step on either path. -/
theorem InStep.step (h : InStep form formData index before engine transaction)
    (hat : form.arrays[index]? = some before) (hindex : form.arrayIndex binding = some index)
    (hlt : ∀ i ∈ before.identities, i < form.nextItemIdentity) {step : ArrayStep}
    (hrun : step.Runs binding engine engine')
    (hvalid : (transaction.apply (step.hostOperation binding
      before.definition.itemTemplate.creationSeed)).valid = true)
    (herror : (transaction.apply (step.hostOperation binding
      before.definition.itemTemplate.creationSeed)).commitError = none) :
    InStep form formData index before engine' (transaction.apply (step.hostOperation binding
      before.definition.itemTemplate.creationSeed)) := by
  obtain ⟨_, _, hbegin⟩ := HostTransaction.apply_begun hvalid herror
  have hnew (array : ArrayState) : Stands before form.nextItemIdentity .fresh
      (engine.newItem array) := h.next_le
  cases step with
  | append =>
    obtain ⟨item, he⟩ := hrun
    obtain ⟨i, array, hs⟩ := Engine.Form.appendArrayItem_step he
    simp only [ArrayStep.hostOperation, HostTransaction.apply, hbegin] at hvalid ⊢
    simp only [Bool.not_true, Bool.false_eq_true, if_false, HostTransaction.appendItem]
      at hvalid ⊢
    refine h.editArray hat hindex hs hvalid fun entries position hdefinition hrel _ => ⟨?_, ?_⟩
    · rw [hdefinition]
    · exact List.rel_append hrel (.cons (hnew array) .nil)
  | insertBefore item =>
    obtain ⟨inserted, he⟩ := hrun
    obtain ⟨i, array, position, hp, hs⟩ := Engine.Form.insertArrayItemBefore_step he
    simp only [ArrayStep.hostOperation, HostTransaction.apply, hbegin] at hvalid ⊢
    simp only [Bool.not_true, Bool.false_eq_true, if_false, HostTransaction.insertItemBefore]
      at hvalid ⊢
    split at hvalid
    · cases hvalid
    rename_i hform
    rw [if_neg hform]
    refine h.editArray hat hindex hs hvalid fun entries place hdefinition hrel hplace => ?_
    obtain rfl := Option.some.inj (hp.symm.trans (findIdx?_stands hrel hlt hplace))
    refine ⟨?_, forall₂_insertIdx hrel position (hnew array)⟩
    rw [hdefinition]
  | remove item =>
    obtain ⟨removed, he⟩ := hrun
    obtain ⟨i, array, position, hp, hs⟩ := Engine.Form.removeArrayItem_step he
    simp only [ArrayStep.hostOperation, HostTransaction.apply, hbegin] at hvalid ⊢
    simp only [Bool.not_true, Bool.false_eq_true, if_false, HostTransaction.removeItem]
      at hvalid ⊢
    split at hvalid
    · cases hvalid
    rename_i hform
    rw [if_neg hform]
    refine h.editArray hat hindex hs hvalid fun entries place _ hrel hplace => ?_
    obtain rfl := Option.some.inj (hp.symm.trans (findIdx?_stands hrel hlt hplace))
    exact ⟨rfl, forall₂_eraseIdx hrel position⟩
  | move direction item =>
    obtain ⟨moved, he⟩ := hrun
    obtain ⟨i, array, source, destination, hp, hd, hs⟩ := Engine.Form.moveArrayItem_step he
    simp only [ArrayStep.hostOperation, HostTransaction.apply, hbegin] at hvalid ⊢
    simp only [Bool.not_true, Bool.false_eq_true, if_false, HostTransaction.moveItem] at hvalid ⊢
    split at hvalid
    · cases hvalid
    rename_i hform
    rw [if_neg hform]
    refine h.editArray hat hindex hs hvalid fun entries place _ hrel hplace => ?_
    obtain ⟨position, hposition, hplace⟩ := Option.bind_eq_some_iff.mp hplace
    obtain rfl := Option.some.inj (hp.symm.trans (findIdx?_stands hrel hlt hposition))
    rw [hrel.length_eq, hd] at hplace
    cases hplace
    exact ⟨rfl, forall₂_swap hrel source destination⟩

end InStep

/-! ## Runs -/

namespace Form

variable {form form' user host : Form} {target : InstanceIdentity} {d : DefinitionNode}
  {binding : Pointer} {step : ArrayStep} {steps : List ArrayStep}

theorem outcome_eq_ok {ε : Type} {wrap : ε → OperationError} {result : Form × Except ε Transition}
    {t : Transition} (h : outcome wrap result = (form', .ok t)) : result = (form', .ok t) := by
  obtain ⟨form₁, r⟩ := result
  cases r <;> cases h
  rfl

/-- The user's step runs the engine operation at the array the target shows. -/
theorem step_runs (hd : form.definition.inner.nodes[target.node]? = some d)
    (hb : d.binding = some binding) {t : Transition}
    (h : form.step (step.userOperation target) = (form', .ok t)) :
    step.Runs binding form.engine form'.engine := by
  have hbinding {found : Pointer} {template : Nat} {d' : DefinitionNode}
      (ht : form.ArrayTarget target found template d') : found = binding := by
    obtain rfl := Option.some.inj (hd.symm.trans ht.node)
    exact Option.some.inj (ht.binding.symm.trans hb)
  cases step with
  | append =>
    have h : form.appendItem target = (form', .ok t) := outcome_eq_ok h
    rcases appendItem_cases h with ⟨_, _, hr⟩ | ⟨_, _, _, item, ht, ⟨hp, he⟩, rfl, _⟩
    · cases hr
    · obtain ⟨_, htarget⟩ := arrayTarget rfl (fun _ _ => rfl) (fun _ => rfl) hp ht
      obtain rfl := hbinding htarget
      exact ⟨item, he⟩
  | insertBefore item =>
    have h : form.insertItemBefore target item = (form', .ok t) := outcome_eq_ok h
    rcases insertItemBefore_cases h with
      ⟨_, _, hr⟩ | ⟨_, _, _, inserted, _, ht, ⟨hp, he⟩, rfl, _⟩
    · cases hr
    · obtain ⟨_, htarget⟩ := arrayTarget rfl (fun _ _ => rfl) (fun _ => rfl) hp ht
      obtain rfl := hbinding htarget
      exact ⟨inserted, he⟩
  | remove item =>
    have h : form.removeItem target item = (form', .ok t) := outcome_eq_ok h
    rcases removeItem_cases h with
      ⟨_, _, hr⟩ | ⟨_, _, _, removed, _, ht, ⟨hp, he⟩, rfl, _⟩
    · cases hr
    · obtain ⟨_, htarget⟩ := arrayTarget rfl (fun _ _ => rfl) (fun _ => rfl) hp ht
      obtain rfl := hbinding htarget
      exact ⟨removed, he⟩
  | move direction item =>
    have h : form.moveItem direction target item = (form', .ok t) := outcome_eq_ok h
    rcases moveItem_cases h with
      ⟨_, _, hr⟩ | ⟨_, _, engine, moved, _, ht, ⟨hp, he⟩, hform, _⟩
    · cases hr
    · obtain ⟨_, htarget⟩ := arrayTarget rfl (fun _ _ => rfl) (fun _ => rfl) hp ht
      obtain rfl := hbinding htarget
      have hengine : form'.engine = engine := by
        rw [hform]
        split <;> rfl
      exact ⟨moved, hengine ▸ he⟩

theorem foldl_good {operations : List HostOperation} {transaction : HostTransaction}
    (hvalid : (operations.foldl HostTransaction.apply transaction).valid = true)
    (herror : (operations.foldl HostTransaction.apply transaction).commitError = none) :
    transaction.valid = true ∧ transaction.commitError = none := by
  induction operations generalizing transaction with
  | nil => exact ⟨hvalid, herror⟩
  | cons operation operations ih =>
    obtain ⟨hv, he⟩ := ih hvalid herror
    obtain ⟨hv, he, _⟩ := HostTransaction.apply_begun hv he
    exact ⟨hv, he⟩

theorem userOperation_wf (target : InstanceIdentity) (step : ArrayStep) :
    (step.userOperation target).WF := by
  cases step <;> trivial

/-- Both paths stay in step to the end. -/
theorem takeSteps_inStep {engine : Engine.Form} {formData : Value} {index : Nat}
    {before : ArrayState} {transaction : HostTransaction}
    (hat : engine.arrays[index]? = some before) (hindex : engine.arrayIndex binding = some index)
    (hlt : ∀ i ∈ before.identities, i < engine.nextItemIdentity) (hinv : form.Inv)
    (hd : form.definition.inner.nodes[target.node]? = some d) (hb : d.binding = some binding)
    (h : InStep engine formData index before form.engine transaction)
    (hu : takeSteps target steps form = some user)
    (hvalid : ((steps.map (·.hostOperation binding
      before.definition.itemTemplate.creationSeed)).foldl HostTransaction.apply
        transaction).valid = true)
    (herror : ((steps.map (·.hostOperation binding
      before.definition.itemTemplate.creationSeed)).foldl HostTransaction.apply
        transaction).commitError = none) :
    user.Inv ∧ InStep engine formData index before user.engine
      ((steps.map (·.hostOperation binding
        before.definition.itemTemplate.creationSeed)).foldl HostTransaction.apply transaction) := by
  induction steps generalizing form transaction with
  | nil =>
    cases hu
    exact ⟨hinv, h⟩
  | cons step steps ih =>
    rw [takeSteps] at hu
    generalize hstep : form.step (step.userOperation target) = result at hu
    obtain ⟨form₁, r⟩ := result
    cases r with
    | error e => cases hu
    | ok t =>
      have heffect := step_effect hinv ⟨step.userOperation target, userOperation_wf target step⟩
      rw [hstep] at heffect
      rw [List.map_cons, List.foldl_cons] at hvalid herror ⊢
      obtain ⟨hv, he⟩ := foldl_good hvalid herror
      have hnext := h.step hat hindex hlt (step_runs hd hb hstep) hv he
      refine ih heffect.inv ?_ hnext hu hvalid herror
      rw [heffect.definition]
      exact hd

/-! ## The commit -/

/-- An item that was there is there on both paths, as it was; else both items are new. -/
def SameItem (before : List ArrayItemState) (next : Nat) (item other : ArrayItemState) : Prop :=
  item ∈ before ∧ other = item ∨ next ≤ item.identity ∧ next ≤ other.identity

/-- What both paths make of one topology. -/
theorem sameItems {before : ArrayState} {next n m : Nat} (hle : next ≤ n)
    (hnd : before.identities.Nodup) {entries : List HostArrayItem}
    {items others : List ArrayItemState} (h : List.Forall₂ (Stands before next) entries items)
    (h' : List.Forall₂ (Engine.Form.Taken before.definition before.items n m) entries others) :
    List.Forall₂ (SameItem before.items next) items others := by
  induction h generalizing others with
  | nil =>
    cases h'
    exact .nil
  | @cons entry item _ _ hstands _ ih =>
    cases h' with
    | @cons _ other _ _ htaken hrest =>
      refine .cons ?_ (ih hrest)
      cases entry with
      | existing identity =>
        obtain ⟨hitem, hidentity⟩ := hstands
        obtain ⟨hother, hidentity'⟩ := htaken
        exact .inl ⟨hitem, (List.inj_on_of_nodup_map hnd hitem hother
          (hidentity.trans hidentity'.symm)).symm⟩
      | fresh =>
        obtain ⟨i, hi, _, rfl⟩ := htaken
        exact .inr ⟨hstands, hle.trans hi⟩

/-- Where both paths end. -/
structure PathsAgree (form user host : Form) (binding : Pointer) : Prop where
  formData : jsonValuesEqual user.formData host.formData = true
  items : ∃ before ours theirs, form.engine.array binding = some before ∧
    user.engine.array binding = some ours ∧ host.engine.array binding = some theirs ∧
    List.Forall₂ (SameItem before.items form.engine.nextItemIdentity) ours.items theirs.items

/-- The items of the array once the host's queue is committed. -/
theorem committed_items {engine : Engine.Form} {transaction : HostTransaction} {index : Nat}
    {before : ArrayState} {formData candidate : Value} {definition : Engine.FormDefinition}
    {numbers : Engine.NumberInput} (hinv : engine.Inv definition numbers)
    (hat : engine.arrays[index]? = some before) {current : Engine.Form}
    (h : InStep engine formData index before current transaction)
    (hlen : (transaction.arrayTopologies.map hostArrayChange).length = engine.arrays.length)
    (hvalid : ∀ e ∈ engine.arrays.zip (transaction.arrayTopologies.map hostArrayChange),
      Engine.Form.validChange candidate e = true) :
    ∃ ours theirs, current.arrays[index]? = some ours ∧ ours.definition = before.definition ∧
      (engine.committed candidate transaction.writes
        (transaction.arrayTopologies.map hostArrayChange) transaction.itemWrites).arrays[index]? =
          some theirs ∧ theirs.definition = before.definition ∧
      List.Forall₂ (SameItem before.items engine.nextItemIdentity) ours.items theirs.items := by
  obtain ⟨items, entries, harrays, htopologies, hrel⟩ := h.rows
  have hlt := (List.getElem?_eq_some_iff.mp hat).1
  obtain ⟨theirs, htheirs⟩ : ∃ theirs, (engine.committed candidate transaction.writes
      (transaction.arrayTopologies.map hostArrayChange) transaction.itemWrites).arrays[index]? =
        some theirs := by
    refine ⟨_, List.getElem?_eq_getElem ?_⟩
    have hshaped : (engine.committed candidate transaction.writes
        (transaction.arrayTopologies.map hostArrayChange) transaction.itemWrites).Shaped
          definition := Engine.Form.committed_shaped hinv hlen hvalid
    have hdefinitions := congrArg List.length (hshaped.arrays.trans hinv.shaped.arrays.symm)
    rw [List.length_map, List.length_map] at hdefinitions
    omega
  obtain ⟨before', change, n, m, hle, hat', hchange, happlied⟩ :=
    (Engine.Form.committed_applied hinv hlen hvalid).2 index theirs htheirs
  obtain rfl := Option.some.inj (hat.symm.trans hat')
  have hpreserve : change = .preserve entries := by
    rw [List.getElem?_map, htopologies, List.getElem?_modify, getElem?_of_map hat] at hchange
    simp only [if_true, Option.map_eq_map, Option.map_some, Option.some.injEq] at hchange
    exact hchange.symm
  subst hpreserve
  have hcleared : List.Forall₂ _ entries theirs.items := happlied.items
  have htaken : List.Forall₂ (Engine.Form.Taken before.definition before.items n m) entries
      theirs.items := by
    refine hcleared.imp fun _ _ htaken => htaken.mono (fun item hitem => ?_) (Nat.le_refl n)
    obtain ⟨item, hmem, rfl⟩ := List.mem_map.mp hitem
    rw [h.itemWrites, Engine.Form.clearItem_nil]
    exact hmem
  refine ⟨{ before with items }, theirs, ?_, rfl, htheirs, happlied.definition,
    sameItems hle (hinv.identities_nodup before (List.mem_of_getElem? hat)) hrel htaken⟩
  rw [harrays, List.getElem?_modify, hat]
  simp

theorem paths_agree (hreachable : formSystem.Reachable form) {array : ArrayDefinition}
    (harray : array ∈ form.definition.inner.engine.arrays)
    (hd : form.definition.inner.nodes[target.node]? = some d) (hb : d.binding = some array.binding)
    (hu : takeSteps target steps form = some user) {t : Transition}
    (hh : form.transact (steps.map (·.hostOperation array.binding
      array.itemTemplate.creationSeed)) = (host, .ok t)) :
    PathsAgree form user host array.binding := by
  have hinv := reachable_inv hreachable
  obtain ⟨before, hbefore, rfl⟩ : ∃ before ∈ form.engine.arrays, before.definition = array := by
    rw [← hinv.shaped.arrays] at harray
    exact List.mem_map.mp harray
  have hfound := hinv.shaped.array_eq form.engine_wf hbefore
  obtain ⟨index, hindex⟩ := Engine.Form.arrayIndex_isSome hfound
  have hat := (Engine.Form.array_at hindex hfound).1
  have hlt : ∀ i ∈ before.identities, i < form.engine.nextItemIdentity := fun i hi =>
    hinv.pool.current_lt i (List.mem_flatten.mpr ⟨_, List.mem_map_of_mem hbefore, hi⟩)
  have hwf : ∀ o ∈ steps.map (·.hostOperation before.definition.binding
      before.definition.itemTemplate.creationSeed), o.WF := by
    have hseed := Engine.Form.template_seed_wf form.engine_wf hinv hbefore
    intro o ho
    obtain ⟨step, _, rfl⟩ := List.mem_map.mp ho
    cases step with
    | append => exact hseed
    | insertBefore item => exact hseed
    | remove item => trivial
    | move direction item => trivial
  rcases transact_cases hinv hwf hh with ⟨_, _, hr⟩ | ⟨candidate, engine, hc, he, rfl, _⟩
  · cases hr
  obtain ⟨herror, hvalid, _, _, rfl⟩ := hostCandidate_eq_ok hc
  have hstart : InStep form.engine form.formData index before form.engine form.hostTransaction :=
    inStep_refl hat rfl rfl rfl (hostArrayTopologies_eq form.engine_wf hinv.shaped)
  obtain ⟨huinv, hend⟩ := takeSteps_inStep hat hindex hlt hinv hd hb hstart hu hvalid herror
  obtain ⟨hcwf, _, hw⟩ := queued_candidate hinv hwf hc
  have heffect := hostCommitted_effect hinv hwf hc he
  have htracked := queued_tracked hinv hwf
  rcases Engine.Form.applyHostTransaction_cases hinv.identities_nodup hw.found he with
    ⟨_, _, hr⟩ | ⟨_, _, hlen, hvalids, stateChanged, hengine, _⟩
  · cases hr
  have hdefinition := heffect.definition
  have hhinv := heffect.inv
  have hhost := form.hostCommitted_engine (form.queued (steps.map (·.hostOperation
    before.definition.binding before.definition.itemTemplate.creationSeed)))
    (preserveSemanticallyEqualValues form.formData (form.queued (steps.map (·.hostOperation
      before.definition.binding before.definition.itemTemplate.creationSeed))).candidate) engine
  obtain ⟨ours, theirs, hours, hod, htheirs, htd, hitems⟩ :=
    committed_items hinv hat hend hlen hvalids
  constructor
  · obtain ⟨hpwf, hpreserved⟩ := preserve_respells hinv.formData_wf htracked.candidate_wf
    have hcommitted := Engine.Form.committedData_equal hinv hpwf
    rw [formData, formData, hhost, hengine, ← hend.data]
    exact jsonValuesEqual_trans htracked.candidate_wf hpwf
      (Engine.Form.committedData_wf hinv hpwf) hpreserved hcommitted
  · have hus := huinv.shaped.array_eq user.engine_wf (List.mem_of_getElem? hours)
    have hhs := hhinv.shaped.array_eq (engine_wf _) (a := theirs) (by
      rw [hhost, hengine]
      exact List.mem_of_getElem? htheirs)
    rw [hod] at hus
    rw [htd] at hhs
    exact ⟨before, ours, theirs, hfound, hus, hhs, hitems⟩

end Form

/-! ## Two strings -/

namespace Sample

/-- The form built on two strings once `z` was typed into its first item. -/
def named : Form := formSystem.run built [⟨.inputText ⟨0, 2, some ⟨0, 1⟩⟩ "z", trivial⟩]

theorem named_reachable : formSystem.Reachable named := built_reachable.run _

def shuffle : List ArrayStep := [.append, .move .down ⟨0, 1⟩, .remove ⟨0, 2⟩]

end Sample

namespace Form

open Sample

theorem paths_agree_shuffle : ∃ user host t,
    takeSteps ⟨0, 1, none⟩ shuffle named = some user ∧
    named.transact (shuffle.map (·.hostOperation array.binding array.itemTemplate.creationSeed)) =
      (host, .ok t) ∧
    host.formData = Sample.formData [.string "z", .string ""] ∧
    host.engine.buffers = ["z"] ∧ PathsAgree named user host array.binding := by
  obtain ⟨user, hu⟩ : ∃ user, takeSteps ⟨0, 1, none⟩ shuffle named = some user := ⟨_, rfl⟩
  obtain ⟨t, ht⟩ : ∃ t, (named.transact
      (shuffle.map (·.hostOperation array.binding array.itemTemplate.creationSeed))).2 = .ok t :=
    ⟨_, rfl⟩
  have hh : named.transact
      (shuffle.map (·.hostOperation array.binding array.itemTemplate.creationSeed)) = (_, .ok t) :=
    Prod.ext rfl ht
  have harray : array ∈ named.definition.inner.engine.arrays := List.mem_singleton_self _
  exact ⟨user, _, t, hu, hh, rfl, rfl, paths_agree named_reachable harray rfl rfl hu hh⟩

end Form

end Schemaform
