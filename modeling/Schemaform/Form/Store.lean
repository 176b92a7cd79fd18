import Schemaform.Engine.Items
import Schemaform.Form.Reachable

/-!
# Form.Store

The stored batches of external findings under any operation.

* `BySource`: batches in the order of their sources, one for each.
* `replaceBatch_perm`, `replaceBatch_bySource`: what filing a batch leaves.
* `relocation`: where an operation that keeps the data moves findings.
* `StoreStep`, `step_store`: an operation clears the batches, keeps them, moves their findings, or
  files one.
* `reachable_bySource`.
-/

namespace Schemaform

/-! ## One batch for each source -/

def BySource (batches : List ExternalFindingBatch) : Prop :=
  batches.Pairwise fun a b => a.source < b.source

namespace BySource

variable {batches batches' : List ExternalFindingBatch} {batch : ExternalFindingBatch}

/-- Two stores with the same batches. -/
theorem ext (h : BySource batches) (h' : BySource batches')
    (hmem : ∀ b, b ∈ batches ↔ b ∈ batches') : batches = batches' := by
  have hirrefl : Std.Irrefl fun a b : ExternalFindingBatch => a.source < b.source :=
    ⟨fun a => lt_irrefl a.source⟩
  have hantisymm : Std.Antisymm fun a b : ExternalFindingBatch => a.source < b.source :=
    ⟨fun a b hab hba => absurd hba (lt_asymm hab)⟩
  exact List.Pairwise.eq_of_mem_iff h h' hmem

theorem of_map (h : BySource batches) {f : ExternalFindingBatch → ExternalFindingBatch}
    (hf : ∀ b, (f b).source = b.source) : BySource (batches.map f) := by
  refine List.pairwise_map.mpr (h.imp fun hab => ?_)
  rwa [hf, hf]

/-- The batch of a source stands between those of smaller and those of greater sources. -/
theorem split (h : BySource batches) {source : String} {index : Nat}
    (hi : batches.findIdx? (·.source == source) = some index) :
    ∃ before old after, batches = before ++ old :: after ∧ before.length = index ∧
      old.source = source ∧ ∀ b ∈ before ++ after, b.source ≠ source := by
  obtain ⟨hlt, hsource, -⟩ := List.findIdx?_eq_some_iff_getElem.mp hi
  have hsource : batches[index].source = source := by simpa using hsource
  have hsplit : batches = batches.take index ++ batches[index] :: batches.drop (index + 1) := by
    rw [← List.drop_eq_getElem_cons hlt, List.take_append_drop]
  refine ⟨_, _, _, hsplit, List.length_take_of_le (Nat.le_of_lt hlt), hsource, fun b hb hs => ?_⟩
  unfold BySource at h
  rw [hsplit, List.pairwise_append, List.pairwise_cons] at h
  obtain ⟨-, ⟨hafter, -⟩, hbefore⟩ := h
  rcases List.mem_append.mp hb with hb | hb
  · have := hbefore b hb _ List.mem_cons_self
    rw [hs, hsource] at this
    exact lt_irrefl _ this
  · have := hafter b hb
    rw [hs, hsource] at this
    exact lt_irrefl _ this

theorem retainedBatches_split {source : String} {index : Nat}
    {before after : List ExternalFindingBatch} {old : ExternalFindingBatch}
    (hi : (before ++ old :: after).findIdx? (·.source == source) = some index)
    (hlength : before.length = index) :
    retainedBatches (before ++ old :: after) source = before ++ after := by
  unfold retainedBatches
  rw [hi]
  dsimp only
  rw [← hlength, List.eraseIdx_append_of_length_le (Nat.le_refl _), Nat.sub_self]
  rfl

theorem retainedBatches_none {source : String}
    (hi : batches.findIdx? (·.source == source) = none) :
    retainedBatches batches source = batches := by
  unfold retainedBatches
  rw [hi]

theorem mem_retainedBatches (h : BySource batches) (source : String) (b : ExternalFindingBatch) :
    b ∈ retainedBatches batches source ↔ b ∈ batches ∧ b.source ≠ source := by
  cases hi : batches.findIdx? (·.source == source) with
  | none =>
    have hne : ∀ c ∈ batches, c.source ≠ source := by
      simpa using List.findIdx?_eq_none_iff.mp hi
    rw [retainedBatches_none hi]
    exact ⟨fun hb => ⟨hb, hne b hb⟩, And.left⟩
  | some index =>
    obtain ⟨before, old, after, rfl, hlength, hsource, hne⟩ := h.split hi
    rw [retainedBatches_split hi hlength]
    constructor
    · intro hb
      refine ⟨?_, hne b hb⟩
      rcases List.mem_append.mp hb with hb | hb
      · exact List.mem_append_left _ hb
      · exact List.mem_append_right _ (List.mem_cons_of_mem _ hb)
    · rintro ⟨hb, hs⟩
      rcases List.mem_append.mp hb with hb | hb
      · exact List.mem_append_left _ hb
      · rcases List.mem_cons.mp hb with rfl | hb
        · exact absurd hsource hs
        · exact List.mem_append_right _ hb

/-- Only the batch of its own source makes room for a batch, an empty one is not stored. -/
theorem replaceBatch_perm (h : BySource batches) (batch : ExternalFindingBatch) :
    (replaceBatch batches batch).1.Perm (retainedBatches batches batch.source ++
      if batch.findings.isEmpty then [] else [batch]) := by
  unfold replaceBatch
  split
  · rename_i index hi
    obtain ⟨before, old, after, rfl, hlength, hsource, hne⟩ := h.split hi
    rw [retainedBatches_split hi hlength]
    split
    · dsimp only
      rw [← hlength, List.eraseIdx_append_of_length_le (Nat.le_refl _), Nat.sub_self,
        List.append_nil]
      exact .refl _
    · have hmiddle : (before ++ batch :: after).Perm (before ++ after ++ [batch]) :=
        List.perm_middle.trans (List.perm_append_singleton batch (before ++ after)).symm
      split
      · rename_i hsame
        rw [← hlength, List.getElem?_append_right (Nat.le_refl _)] at hsame
        obtain rfl : old = batch := by simpa using hsame
        exact hmiddle
      · dsimp only
        rw [← hlength, List.set_append_right _ _ (Nat.le_refl _), Nat.sub_self,
          List.set_cons_zero]
        exact hmiddle
  · rename_i hi
    rw [retainedBatches_none hi]
    split
    · rw [List.append_nil]
    · exact List.perm_insertionSort _ _

theorem mem_replaceBatch (h : BySource batches) (batch b : ExternalFindingBatch) :
    b ∈ (replaceBatch batches batch).1 ↔
      b ∈ batches ∧ b.source ≠ batch.source ∨ b = batch ∧ batch.findings ≠ [] := by
  rw [(h.replaceBatch_perm batch).mem_iff, List.mem_append, h.mem_retainedBatches]
  refine or_congr_right ?_
  split
  · rename_i hempty
    simp [List.isEmpty_iff.mp hempty]
  · rename_i hempty
    have hcons : batch.findings ≠ [] := by simpa using hempty
    simp [hcons]

theorem sortBatches_pairwise (batches : List ExternalFindingBatch) :
    (sortBatches batches).Pairwise fun a b => a.source ≤ b.source := by
  have hle (a b : ExternalFindingBatch) :
      (compare a.source b.source).isLE = true ↔ a.source ≤ b.source :=
    Ordering.isLE_iff_ne_gt.trans compare_le_iff_le
  have htotal : Std.Total fun left right : ExternalFindingBatch =>
      (compare left.source right.source).isLE = true :=
    ⟨fun a b => (le_total a.source b.source).imp (hle a b).mpr (hle b a).mpr⟩
  have htrans : IsTrans ExternalFindingBatch fun left right =>
      (compare left.source right.source).isLE = true :=
    ⟨fun a b c hab hbc => (hle a c).mpr (le_trans ((hle a b).mp hab) ((hle b c).mp hbc))⟩
  exact (List.pairwise_insertionSort _ batches).imp fun hab => (hle _ _).mp hab

theorem replaceBatch_bySource (h : BySource batches) (batch : ExternalFindingBatch) :
    BySource (replaceBatch batches batch).1 := by
  unfold replaceBatch
  split
  · rename_i index hi
    split
    · exact h.sublist (List.eraseIdx_sublist _ _)
    · split
      · exact h
      · obtain ⟨before, old, after, rfl, hlength, hsource, -⟩ := h.split hi
        dsimp only
        rw [← hlength, List.set_append_right _ _ (Nat.le_refl _), Nat.sub_self,
          List.set_cons_zero]
        have hsources : (before ++ batch :: after).map (·.source) =
            (before ++ old :: after).map (·.source) := by simp [hsource]
        refine List.pairwise_map.mp (?_ : ((before ++ batch :: after).map
          (·.source)).Pairwise (· < ·))
        rw [hsources]
        exact List.pairwise_map.mpr h
  · rename_i hi
    split
    · exact h
    · have hne : ∀ c ∈ batches, c.source ≠ batch.source := by
        simpa using List.findIdx?_eq_none_iff.mp hi
      have hdistinct : (batches ++ [batch]).Pairwise fun a b => a.source ≠ b.source := by
        refine List.pairwise_append.mpr ⟨h.imp fun hab => ne_of_lt hab, List.pairwise_singleton _ _,
          fun a ha b hb => ?_⟩
        obtain rfl := List.mem_singleton.mp hb
        exact hne a ha
      have hsorted := (List.perm_insertionSort (fun left right : ExternalFindingBatch =>
        (compare left.source right.source).isLE = true) (batches ++ [batch])).symm.pairwise
          hdistinct fun hab => Ne.symm hab
      exact ((sortBatches_pairwise _).and hsorted).imp fun hab => lt_of_le_of_ne hab.1 hab.2

end BySource

/-! ## Steps -/

/-- Where an operation that leaves the data equal moves the findings, unless it is refused. -/
def Operation.relocation (form : Form) : Operation → Option (Pointer → Option Pointer)
  | .moveItem direction array item => do
    let node ← form.node array
    let binding ← node.binding
    let identities ← form.engine.arrayItemIdentities binding
    let values ← (binding.resolve form.formData).bind Value.asArray
    let source ← identities.findIdx? (· == item.localId)
    let destination ← Engine.Form.moveDestination direction source identities.length
    if jsonValuesEqual (values.getD source .null) (values.getD destination .null) then
      some fun location => some (swapLocation (Engine.arrayItemPointer binding source)
        (Engine.arrayItemPointer binding destination) location)
    else none
  | .transact operations | .tryTransact operations _ => do
    let candidate ← (form.hostCandidate (form.queued operations)).toOption
    if jsonValuesEqual form.formData candidate then
      some (rebaseLocation .remove
        (form.hostArrayTopologies.zip (form.queued operations).arrayTopologies))
    else none
  | .reset =>
    if jsonValuesEqual form.formData form.engine.baseline then
      some (rebaseLocation .preserve (form.hostArrayTopologies.zip
        { form with engine := form.engine.reset }.hostArrayTopologies))
    else none
  | _ => none

namespace Form

variable {form form' : Form}

/-- The findings of an operation that leaves the data equal are where it moves them. -/
structure Relocates (form : Form) (move : Pointer → Option Pointer) (form' : Form) : Prop where
  batches : form'.externalFindingBatches =
    (form.externalFindingBatches.map (rebaseBatch move)).filter fun batch => !batch.findings.isEmpty
  data : form'.dataRevision = form.dataRevision

/-- What an operation does to the stored batches, if it moves findings only as `moves` says. -/
inductive StoreStep (form : Form) (moves : (Pointer → Option Pointer) → Prop) (form' : Form) :
    Prop where
  | cleared (h : form'.externalFindingBatches = [])
  | kept (h : form'.externalFindingBatches = form.externalFindingBatches)
      (hdata : form'.dataRevision = form.dataRevision)
  | relocated (move : Pointer → Option Pointer) (hmove : moves move)
      (h : form.Relocates move form')
  | filed (batch stored : ExternalFindingBatch) (haccepted : form.Accepted batch stored)
      (hwf : ∀ f ∈ batch.findings, f.parameters.WF) (h : form' = form.withBatch stored)

variable {moves : (Pointer → Option Pointer) → Prop}

theorem StoreStep.of_refused {α ε : Type} {r : Except ε α} (h : Refused form form' r) :
    form.StoreStep moves form' := by
  rw [h.1]
  exact .kept rfl rfl

theorem settle_store {engine : Engine.Form} :
    form.StoreStep moves ({ form with engine }.settle form.revisions) := by
  rw [settle_eq]
  split
  · rename_i hr
    exact .kept rfl (congrArg (DataRevision.mk form.id) hr)
  · exact .cleared rfl

theorem structureOrScalar_store {engine : Engine.Form} {target : InstanceIdentity}
    {binding : Pointer} {r : Except UserOperationError Transition}
    (h : form.StructureOrScalar target binding engine form' r) : form.StoreStep moves form' := by
  rw [h.form_eq]
  exact settle_store

theorem items_store {engine : Engine.Form} {directlyChanged removed : List InstanceIdentity}
    {r : Except UserOperationError Transition}
    (h : form.ItemsEdited engine directlyChanged removed form' r) : form.StoreStep moves form' := by
  obtain ⟨rfl, _⟩ := h
  exact .cleared rfl

theorem moveExternalFindings_relocates (hord : form.Ordered) {engine : Engine.Form}
    (hdata : engine.dataRevision = form.engine.dataRevision) (array : Pointer)
    (source destination : Nat) : form.Relocates (fun location =>
      some (swapLocation (Engine.arrayItemPointer array source)
        (Engine.arrayItemPointer array destination) location))
      ({ form with engine }.moveExternalFindings array source destination) := by
  have hord' : ({ form with engine } : Form).Ordered := hord
  have hmoved := moveExternalFindings_ordered hord' array source destination
  have hkept : ({ form with engine }.moveExternalFindings array source
      destination).externalFindingBatches.filter (fun batch => !batch.findings.isEmpty) =
      ({ form with engine }.moveExternalFindings array source destination).externalFindingBatches :=
    List.filter_eq_self.mpr fun batch hb => by simpa using (hmoved batch hb).1
  exact ⟨hkept.symm, congrArg (DataRevision.mk form.id) hdata⟩

/-- An operation that can move findings moves them or clears them. -/
def Carries (form : Form) (relocation : Option (Pointer → Option Pointer)) (form' : Form) : Prop :=
  match relocation with
  | some move => form.Relocates move form'
  | none => form'.externalFindingBatches = []

theorem Carries.store {relocation : Option (Pointer → Option Pointer)}
    (h : form.Carries relocation form') (hmoves : ∀ move, relocation = some move → moves move) :
    form.StoreStep moves form' := by
  cases relocation with
  | some move => exact .relocated move (hmoves move rfl) h
  | none => exact .cleared h

theorem moveItem_carries (hord : form.Ordered) {direction : Engine.ArrayMove}
    {array : InstanceIdentity} {item : ItemIdentity} {r : Except UserOperationError Transition}
    (h : form.moveItem direction array item = (form', r)) : Refused form form' r ∨
      r.isOk = true ∧ form.Carries ((Operation.moveItem direction array item).relocation form)
        form' := by
  rcases moveItem_cases h with
    hr | ⟨binding, _, engine, moved, _, _, ⟨⟨node, hnode, _, hb⟩, he⟩, rfl, rfl⟩
  · exact .inl hr
  have hdata := (moveArrayItem_revisions he).1
  rcases Engine.Form.moveArrayItem_cases he with ⟨_, _, hr⟩ | ⟨index, state, source, destination,
    values, formData, displaced, dataChanged, hs, hd, _, hchanged, hr, hv, hw, _⟩
  · cases hr
  cases hr
  have hids := (hw.replaced state.items dataChanged true).before
  have hrelocation : (Operation.moveItem direction array item).relocation form =
      if dataChanged then none
      else some fun location => some (swapLocation (Engine.arrayItemPointer binding source)
        (Engine.arrayItemPointer binding destination) location) := by
    have hs' : state.identities.findIdx? (· == item.localId) = some source :=
      (Engine.Form.findIdx?_identities _ _).trans hs
    have hlength : state.identities.length = state.items.length := List.length_map _
    have hv' : Pointer.resolve binding form.formData = some (.array values) := hv
    simp only [Operation.relocation, hnode, hb, hids, hv', hs', hlength, hd, Option.bind_eq_bind,
      Option.bind_some, Value.asArray, hchanged]
    cases jsonValuesEqual (values.getD source .null) (values.getD destination .null) <;> rfl
  rw [hrelocation]
  cases dataChanged with
  | true => exact .inr ⟨rfl, rfl⟩
  | false => exact .inr ⟨rfl, moveExternalFindings_relocates hord hdata _ _ _⟩

theorem hostCommitted_carries (hinv : form.Inv) {operations : List HostOperation}
    (hwf : ∀ o ∈ operations, o.WF) {candidate : Value} {engine : Engine.Form}
    (hc : form.hostCandidate (form.queued operations) = .ok candidate)
    (he : form.engine.applyHostTransaction candidate (form.queued operations).writes
      ((form.queued operations).arrayTopologies.map hostArrayChange)
      (form.queued operations).itemWrites = (engine, .ok ())) :
    form.Carries ((Operation.transact operations).relocation form)
      (form.hostCommitted (form.queued operations) candidate engine) := by
  obtain ⟨_, _, hw⟩ := queued_candidate hinv hwf hc
  unfold hostCommitted
  simp only [Operation.relocation, hc, Except.toOption, Option.bind_eq_bind, Option.bind_some]
  split
  · rename_i heq
    refine ⟨rfl, congrArg (DataRevision.mk form.id) ?_⟩
    rcases Engine.Form.applyHostTransaction_cases hinv.identities_nodup hw.found he with
      ⟨_, _, hr⟩ | ⟨_, _, _, _, _, rfl, _⟩
    · cases hr
    · have hd : jsonValuesEqual form.engine.formData candidate = true := heq
      rw [hd]
      rfl
  · rfl

theorem transact_carries (hinv : form.Inv) {operations : List HostOperation}
    (hwf : ∀ o ∈ operations, o.WF) {r : Except HostCommitError Transition}
    (h : form.transact operations = (form', r)) : Refused form form' r ∨
      r.isOk = true ∧ form.Carries ((Operation.transact operations).relocation form) form' := by
  rcases transact_cases hinv hwf h with hr | ⟨candidate, engine, hc, he, rfl, rfl⟩
  · exact .inl hr
  · exact .inr ⟨rfl, hostCommitted_carries hinv hwf hc he⟩

theorem tryTransact_carries {ε : Type} (hinv : form.Inv) {operations : List HostOperation}
    (hwf : ∀ o ∈ operations, o.WF) {closure : Except ε Unit}
    {r : Except (TransactionError ε) Transition}
    (h : form.tryTransact operations closure = (form', r)) : Refused form form' r ∨
      r.isOk = true ∧ form.Carries ((Operation.transact operations).relocation form) form' := by
  rcases tryTransact_cases hinv hwf h with hr | ⟨candidate, engine, _, hc, he, rfl, rfl⟩
  · exact .inl hr
  · exact .inr ⟨rfl, hostCommitted_carries hinv hwf hc he⟩

theorem reset_carries (form : Form) :
    form.Carries (Operation.reset.relocation form) form.reset.1 := by
  rw [reset_eq, Operation.relocation, formData]
  cases heq : jsonValuesEqual form.engine.formData form.engine.baseline with
  | true =>
    have hdata : form.engine.reset.dataRevision = form.engine.dataRevision := by
      simp [Engine.Form.reset, Engine.Form.advance, Engine.Form.mapControls,
        Engine.Form.untouchArrays, heq]
    rw [if_pos rfl, if_pos hdata]
    exact ⟨rfl, congrArg (DataRevision.mk form.id) hdata⟩
  | false =>
    have hdata : form.engine.reset.dataRevision = form.engine.dataRevision + 1 := by
      simp [Engine.Form.reset, Engine.Form.advance, Engine.Form.mapControls,
        Engine.Form.untouchArrays, heq]
    rw [if_neg Bool.false_ne_true, if_neg (by omega)]
    rfl

theorem applyExternalFindings_store {batch : ExternalFindingBatch}
    {r : Except (Failure ExternalFindingError) Transition}
    (hwf : ∀ f ∈ batch.findings, f.parameters.WF)
    (h : form.applyExternalFindings batch = (form', r)) : form.StoreStep moves form' := by
  rcases applyExternalFindings_cases h with hr | ⟨stored, hc, rfl, _⟩
  · exact .of_refused hr
  · exact .filed batch stored (checkExternalFindings_accepted hc) hwf rfl

/-- Where the findings of a call are moved. -/
def Moves (form : Form) (operation : Operation) (move : Pointer → Option Pointer) : Prop :=
  (form.step operation).2.isOk = true ∧ operation.relocation form = some move

theorem outcome_isOk {ε : Type} {wrap : ε → OperationError} {r : Except ε Transition} :
    (outcome wrap (form', r)).2.isOk = r.isOk := by
  cases r <;> rfl

theorem refused_isOk {ε : Type} {r : Except ε Transition} (wrap : ε → OperationError)
    (h : Refused form form' r) : (outcome wrap (form', r)).2.isOk = false := by
  obtain ⟨-, e, rfl⟩ := h
  rfl

theorem step_relocates (hinv : form.Inv) (hord : form.Ordered) (operation : WellFormedOperation)
    {move : Pointer → Option Pointer} (h : form.Moves operation.1 move) :
    form.Relocates move (form.step operation.1).1 := by
  obtain ⟨operation, hwf⟩ := operation
  obtain ⟨hok, hmove⟩ := h
  cases operation with
  | moveItem direction array item =>
    have hcases := moveItem_carries hord (show form.moveItem direction array item = (_, _) from rfl)
    rcases hcases with hr | ⟨_, hcarries⟩
    · cases hok.symm.trans (refused_isOk .user hr)
    · rwa [hmove] at hcarries
  | transact operations =>
    have hcases := transact_carries hinv hwf (show form.transact operations = (_, _) from rfl)
    rcases hcases with hr | ⟨_, hcarries⟩
    · cases hok.symm.trans (refused_isOk .hostCommit hr)
    · have hmove' : (Operation.transact operations).relocation form = some move := hmove
      rwa [hmove'] at hcarries
  | tryTransact operations closure =>
    have hcases := tryTransact_carries hinv hwf
      (show form.tryTransact operations closure = (_, _) from rfl)
    rcases hcases with hr | ⟨_, hcarries⟩
    · cases hok.symm.trans (refused_isOk .transaction hr)
    · have hmove' : (Operation.transact operations).relocation form = some move := hmove
      rwa [hmove'] at hcarries
  | reset =>
    have hcarries := reset_carries form
    rwa [hmove] at hcarries
  | _ => cases hmove

theorem step_store (hinv : form.Inv) (hord : form.Ordered) (operation : WellFormedOperation) :
    form.StoreStep (form.Moves operation.1) (form.step operation.1).1 := by
  obtain ⟨operation, hwf⟩ := operation
  cases operation with
  | inputText target text =>
    have hcases := inputText_cases (show form.inputText target text = (_, _) from rfl)
    rcases hcases with hr | ⟨binding, engine, _, hf, _⟩
    · exact .of_refused hr
    · exact (congrArg (form.StoreStep _) hf).mpr settle_store
  | blur target =>
    have hcases := blur_cases (show form.blur target = (_, _) from rfl)
    rcases hcases with hr | ⟨node, binding, engine, _, _, _, _, he, hf, _⟩
    · exact .of_refused hr
    · refine (congrArg (form.StoreStep _) hf).mpr (.kept rfl (congrArg (DataRevision.mk form.id) ?_))
      rcases Engine.Form.blur_cases he with ⟨rfl, _⟩ | ⟨_, _, _, _, rfl⟩ |
        ⟨_, _, _, _, _, _, ⟨_, rfl⟩ | ⟨_, rfl⟩⟩
      · rfl
      · exact Engine.Form.modifyControl_dataRevision _ _ _
      · rfl
      · rfl
  | setValue target value =>
    have hcases := setValue_cases (show form.setValue target value = (_, _) from rfl)
    rcases hcases with hr | ⟨binding, engine, _, hf, _⟩
    · exact .of_refused hr
    · exact (congrArg (form.StoreStep _) hf).mpr settle_store
  | setNull target =>
    have hcases := setNull_cases (show form.setNull target = (_, _) from rfl)
    rcases hcases with hr | ⟨binding, engine, _, hf, _⟩
    · exact .of_refused hr
    · exact (congrArg (form.StoreStep _) hf).mpr settle_store
  | removeValue target =>
    have hcases := removeValue_cases (show form.removeValue target = (_, _) from rfl)
    rcases hcases with hr | ⟨binding, engine, _, hs⟩
    · exact .of_refused hr
    · exact structureOrScalar_store hs
  | replaceValue target value =>
    have hcases := replaceValue_cases (show form.replaceValue target value = (_, _) from rfl)
    rcases hcases with hr | ⟨binding, engine, _, hs⟩
    · exact .of_refused hr
    · exact structureOrScalar_store hs
  | materialize target =>
    have hcases := materialize_cases (show form.materialize target = (_, _) from rfl)
    rcases hcases with hr | ⟨seed, binding, engine, _, _, hs⟩
    · exact .of_refused hr
    · exact (congrArg (form.StoreStep _) hs.1).mpr settle_store
  | appendItem array =>
    have hcases := appendItem_cases (show form.appendItem array = (_, _) from rfl)
    rcases hcases with hr | ⟨binding, template, engine, item, _, _, hs⟩
    · exact .of_refused hr
    · exact items_store hs
  | insertItemBefore array before =>
    have hcases := insertItemBefore_cases
      (show form.insertItemBefore array before = (_, _) from rfl)
    rcases hcases with hr | ⟨binding, template, engine, item, _, _, _, hs⟩
    · exact .of_refused hr
    · exact items_store hs
  | removeItem array item =>
    have hcases := removeItem_cases (show form.removeItem array item = (_, _) from rfl)
    rcases hcases with hr | ⟨binding, template, engine, removed, _, _, _, hs⟩
    · exact .of_refused hr
    · exact items_store hs
  | moveItem direction array item =>
    have hcases := moveItem_carries hord
      (show form.moveItem direction array item = (_, _) from rfl)
    rcases hcases with hr | ⟨hok, hcarries⟩
    · exact .of_refused hr
    · exact hcarries.store fun _ hmove => ⟨outcome_isOk.trans hok, hmove⟩
  | toggleChoice array value =>
    have hcases := toggleChoice_cases (show form.toggleChoice array value = (_, _) from rfl)
    rcases hcases with hr | ⟨binding, template, engine, toggled, _, _, hs⟩
    · exact .of_refused hr
    · exact items_store hs
  | transact operations =>
    have hcases := transact_carries hinv hwf (show form.transact operations = (_, _) from rfl)
    rcases hcases with hr | ⟨hok, hcarries⟩
    · exact .of_refused hr
    · exact hcarries.store fun _ hmove => ⟨outcome_isOk.trans hok, hmove⟩
  | tryTransact operations closure =>
    have hcases := tryTransact_carries hinv hwf
      (show form.tryTransact operations closure = (_, _) from rfl)
    rcases hcases with hr | ⟨hok, hcarries⟩
    · exact .of_refused hr
    · exact hcarries.store fun _ hmove => ⟨outcome_isOk.trans hok, hmove⟩
  | applyExternalFindings batch => exact applyExternalFindings_store hwf rfl
  | reset => exact (reset_carries form).store fun _ hmove => ⟨rfl, hmove⟩
  | setFindingVisibility policy =>
    change form.StoreStep _ (form.setFindingVisibility policy).1
    unfold setFindingVisibility
    dsimp only
    split <;> exact .kept rfl rfl
  | setReadOnly readOnly =>
    change form.StoreStep _ (form.setReadOnly readOnly).1
    unfold setReadOnly
    dsimp only
    split <;> exact .kept rfl rfl
  | reinitialize formData =>
    have hcases := reinitialize_cases (show form.reinitialize formData = (_, _) from rfl)
    rcases hcases with hr | ⟨engine, _, hf, _⟩
    · exact .of_refused hr
    · exact (congrArg (form.StoreStep _) hf).mpr (.cleared rfl)
  | prepareSubmission =>
    exact (congrArg (form.StoreStep _) (prepareSubmission_form form)).mpr (.kept rfl rfl)
  | prepareAdvisorySubmission =>
    exact (congrArg (form.StoreStep _) (prepareAdvisorySubmission_form form)).mpr (.kept rfl rfl)

/-! ## Every reachable form -/

theorem withBatch_batches (form : Form) (batch : ExternalFindingBatch) :
    (form.withBatch batch).externalFindingBatches =
      (replaceBatch form.externalFindingBatches batch).1 := by
  unfold withBatch
  dsimp only
  split <;> rfl

theorem StoreStep.bySource (h : form.StoreStep moves form')
    (hsources : BySource form.externalFindingBatches) : BySource form'.externalFindingBatches := by
  cases h with
  | cleared h =>
    rw [h]
    exact .nil
  | kept h _ => rwa [h]
  | relocated move _ h =>
    rw [h.batches]
    have hmoved : BySource (form.externalFindingBatches.map (rebaseBatch move)) :=
      hsources.of_map fun _ => rfl
    exact hmoved.sublist List.filter_sublist
  | filed batch stored _ _ h =>
    rw [h, withBatch_batches]
    exact hsources.replaceBatch_bySource stored

theorem reachable_bySource (h : formSystem.Reachable form) :
    BySource form.externalFindingBatches := by
  induction h with
  | init hinit =>
    obtain ⟨builder, id, hwf, hb⟩ := hinit
    obtain ⟨_, _, _, _, rfl⟩ := build_ok hwf hb
    exact .nil
  | step operation hreachable ih =>
    exact (step_store (reachable_inv hreachable) (reachable_ordered hreachable)
      operation).bySource ih

end Form

end Schemaform
