import Schemaform.Form.EncodedLength
import Schemaform.Form.Register
import Schemaform.Form.Relocation

/-!
# Form.StoreLimits

The limits of stored external findings along a run.

* `retainedBytes_eq`: batches that fit together are counted without an error.
* `StoreInvariant`: sorted batches without duplicates, of the current revision and within the
  limits, so that the next call finds them in order.
* `StepFits`: the places an operation moves findings to leave them apart and within the limit.
* `rebaseBatch_apart`, `sum_batchBytes_rebased`: what moved batches hold.
* `store_limits_exact`.
-/

namespace Schemaform

open EncodedLength (batchBytes)

/-! ## Counted bytes -/

theorem addBytes_eq_ok {maximum n : Nat} {sizes : List Nat} :
    addBytes maximum 0 sizes = .ok n ↔ n = sizes.sum ∧ sizes.sum ≤ maximum := by
  constructor
  · intro h
    by_cases hle : sizes.sum ≤ maximum
    · rw [EncodedLength.addBytes_ok (by omega), Nat.zero_add] at h
      cases h
      exact ⟨rfl, hle⟩
    · obtain ⟨_, herror, _⟩ := EncodedLength.addBytes_error (Nat.zero_le maximum)
        (show maximum < 0 + sizes.sum by omega)
      rw [herror] at h
      cases h
  · rintro ⟨rfl, hle⟩
    rw [EncodedLength.addBytes_ok (by omega), Nat.zero_add]

theorem activeBytes_eq_ok {batch : ExternalFindingBatch} {maximum n : Nat}
    (hne : batch.findings ≠ []) : activeExternalFindingBatchBytes batch maximum = .ok n ↔
      n = batchBytes batch ∧ batchBytes batch ≤ maximum := by
  have hempty : batch.findings.isEmpty = false := by simpa using hne
  rw [activeExternalFindingBatchBytes, hempty, ← EncodedLength.batchSizes_sum]
  exact addBytes_eq_ok

/-- Batches that fit together are counted without an error. -/
theorem retainedBytes_eq {maximum : Nat} {batches : List ExternalFindingBatch}
    (hne : ∀ b ∈ batches, b.findings ≠ []) (h : (batches.map batchBytes).sum ≤ maximum) :
    retainedBytes maximum batches = some (batches.map batchBytes).sum := by
  induction batches with
  | nil => rfl
  | cons batch batches ih =>
    rw [List.map_cons, List.sum_cons] at h ⊢
    have hbytes := (activeBytes_eq_ok (hne batch List.mem_cons_self)).mpr
      ⟨rfl, show batchBytes batch ≤ maximum by omega⟩
    have hrest := ih (fun b hb => hne b (List.mem_cons_of_mem _ hb)) (by omega)
    rw [retainedBytes, hbytes, hrest]
    rfl

theorem sum_of_retainedBytes {maximum n : Nat} {batches : List ExternalFindingBatch}
    (hne : ∀ b ∈ batches, b.findings ≠ []) (h : retainedBytes maximum batches = some n) :
    n = (batches.map batchBytes).sum := by
  induction batches generalizing n with
  | nil => exact (Option.some.inj h).symm
  | cons batch batches ih =>
    obtain ⟨bytes, hbytes, hsum⟩ := Option.bind_eq_some_iff.mp h
    obtain ⟨rest, hrest, hn⟩ := Option.bind_eq_some_iff.mp hsum
    obtain rfl := Option.some.inj hn
    have hactive : activeExternalFindingBatchBytes batch maximum = .ok bytes := by
      cases hcount : activeExternalFindingBatchBytes batch maximum with
      | error e =>
        rw [hcount] at hbytes
        cases hbytes
      | ok m =>
        rw [hcount] at hbytes
        exact congrArg Except.ok (Option.some.inj hbytes)
    rw [List.map_cons, List.sum_cons, ih (fun b hb => hne b (List.mem_cons_of_mem _ hb)) hrest,
      ((activeBytes_eq_ok (hne batch List.mem_cons_self)).mp hactive).1]

theorem retainedBatches_sublist (batches : List ExternalFindingBatch) (source : String) :
    (retainedBatches batches source).Sublist batches := by
  unfold retainedBatches
  split
  · exact List.eraseIdx_sublist _ _
  · exact .refl _

/-! ## Moved findings -/

/-- Nothing but the place tells the findings apart. -/
def ExternalFinding.Alike (a b : ExternalFinding) : Prop :=
  a.code = b.code ∧ a.blocking = b.blocking ∧ a.parameters = b.parameters

/-- No two findings of the batch that are alike go to one place. -/
def ExternalFindingBatch.StaysApart (batch : ExternalFindingBatch)
    (move : Pointer → Option Pointer) : Prop :=
  batch.findings.Pairwise fun a b => a.Alike b →
    ∀ place, move a.instanceLocation = some place → move b.instanceLocation ≠ some place

/-- The bytes of the batch at the places its findings go to, nothing if none of them goes on. -/
def ExternalFindingBatch.movedBytes (move : Pointer → Option Pointer)
    (batch : ExternalFindingBatch) : Nat :=
  let findings := batch.findings.filterMap (rebaseFinding move)
  if findings.isEmpty then 0 else batchBytes { batch with findings }

section Moved

variable {move : Pointer → Option Pointer} {batch : ExternalFindingBatch}

theorem rebaseFinding_eq_some {a b : ExternalFinding} : rebaseFinding move a = some b ↔
    a.Alike b ∧ move a.instanceLocation = some b.instanceLocation := by
  rw [rebaseFinding, Option.map_eq_some_iff]
  constructor
  · rintro ⟨place, hplace, rfl⟩
    exact ⟨⟨rfl, rfl, rfl⟩, hplace⟩
  · rintro ⟨⟨hcode, hblocking, hparameters⟩, hplace⟩
    refine ⟨b.instanceLocation, hplace, ?_⟩
    rw [hcode, hblocking, hparameters]

theorem rebased_eq {a b a' b' : ExternalFinding} (ha : rebaseFinding move a = some a')
    (hb : rebaseFinding move b = some b') :
    a' = b' ↔ a.Alike b ∧ a'.instanceLocation = b'.instanceLocation := by
  obtain ⟨⟨hcode, hblocking, hparameters⟩, _⟩ := rebaseFinding_eq_some.mp ha
  obtain ⟨⟨hcode', hblocking', hparameters'⟩, _⟩ := rebaseFinding_eq_some.mp hb
  constructor
  · rintro rfl
    exact ⟨⟨hcode.trans hcode'.symm, hblocking.trans hblocking'.symm,
      hparameters.trans hparameters'.symm⟩, rfl⟩
  · rintro ⟨⟨h, h', h''⟩, hplace⟩
    cases a'
    cases b'
    simp only [ExternalFinding.mk.injEq]
    exact ⟨hcode.symm.trans (h.trans hcode'), hplace,
      hparameters.symm.trans (h''.trans hparameters'), hblocking.symm.trans (h'.trans hblocking')⟩

/-- Sorting keeps findings strictly ordered only if no two of them are equal. -/
theorem sorted_pairwise {findings : List ExternalFinding}
    (hwf : ∀ f ∈ findings, f.parameters.WF) :
    ((sortExternalFindings findings).Pairwise fun a b =>
      (compareExternalFindings a b).isLT = true) ↔ findings.Nodup := by
  have hperm : (sortExternalFindings findings).Perm findings := List.perm_insertionSort _ _
  rw [← hperm.nodup_iff]
  constructor
  · refine List.Pairwise.imp fun {a b} hab heq => ?_
    have hrefl : compareExternalFindings b b = .eq := Std.ReflCmp.compare_self
    rw [heq, hrefl] at hab
    cases hab
  · intro hnodup
    refine ((Form.sortExternalFindings_pairwise findings).and hnodup).imp_of_mem
      fun {a b} ha hb hab => ?_
    cases hcompare : compareExternalFindings a b with
    | lt => rfl
    | eq =>
      exact absurd (compareExternalFindings_eq (hwf a (hperm.subset ha)) (hwf b (hperm.subset hb))
        hcompare) hab.2
    | gt =>
      have hle := hab.1
      rw [hcompare] at hle
      cases hle

theorem moved_nodup : (batch.findings.filterMap (rebaseFinding move)).Nodup ↔
    batch.StaysApart move := by
  rw [List.Nodup, List.pairwise_filterMap]
  refine List.Pairwise.iff fun a b => ?_
  constructor
  · intro h halike place ha hb
    have ha' : rebaseFinding move a = some { a with instanceLocation := place } :=
      rebaseFinding_eq_some.mpr ⟨⟨rfl, rfl, rfl⟩, ha⟩
    have hb' : rebaseFinding move b = some { b with instanceLocation := place } :=
      rebaseFinding_eq_some.mpr ⟨⟨rfl, rfl, rfl⟩, hb⟩
    exact h _ ha' _ hb' ((rebased_eq ha' hb').mpr ⟨halike, rfl⟩)
  · intro h a' ha b' hb heq
    obtain ⟨halike, hplace⟩ := (rebased_eq ha hb).mp heq
    refine h halike _ (rebaseFinding_eq_some.mp ha).2 ?_
    rw [hplace]
    exact (rebaseFinding_eq_some.mp hb).2

theorem rebased_wf (hwf : ∀ f ∈ batch.findings, f.parameters.WF) :
    ∀ f ∈ batch.findings.filterMap (rebaseFinding move), f.parameters.WF := by
  intro f hf
  obtain ⟨a, ha, hfa⟩ := List.mem_filterMap.mp hf
  rw [← (rebaseFinding_eq_some.mp hfa).1.2.2]
  exact hwf a ha

theorem rebaseBatch_apart (hwf : ∀ f ∈ batch.findings, f.parameters.WF) :
    ((rebaseBatch move batch).findings.Pairwise fun a b =>
      (compareExternalFindings a b).isLT = true) ↔ batch.StaysApart move :=
  (sorted_pairwise (rebased_wf hwf)).trans moved_nodup

theorem batchBytes_rebaseBatch (move : Pointer → Option Pointer) (batch : ExternalFindingBatch) :
    batchBytes (rebaseBatch move batch) =
      batchBytes { batch with findings := batch.findings.filterMap (rebaseFinding move) } := by
  have hperm := (relocated_rebaseBatch move batch).findings
  rw [batchBytes, batchBytes, (hperm.map _).sum_eq]
  rfl

theorem sum_filter_nonempty (measure : ExternalFindingBatch → Nat)
    (batches : List ExternalFindingBatch) :
    ((batches.filter fun batch => !batch.findings.isEmpty).map measure).sum =
      (batches.map fun batch => if batch.findings.isEmpty then 0 else measure batch).sum := by
  induction batches with
  | nil => rfl
  | cons batch batches ih =>
    rw [List.filter_cons, List.map_cons, List.sum_cons]
    cases hempty : batch.findings.isEmpty with
    | true => simpa using ih
    | false => simpa using ih

theorem rebaseBatch_isEmpty (move : Pointer → Option Pointer) (batch : ExternalFindingBatch) :
    (rebaseBatch move batch).findings.isEmpty =
      (batch.findings.filterMap (rebaseFinding move)).isEmpty := by
  have hperm := (relocated_rebaseBatch move batch).findings
  rw [Bool.eq_iff_iff, List.isEmpty_iff, List.isEmpty_iff]
  exact ⟨fun h => (h ▸ hperm).nil_eq.symm, fun h => (h ▸ hperm).eq_nil⟩

theorem sum_batchBytes_rebased (move : Pointer → Option Pointer)
    (batches : List ExternalFindingBatch) :
    (((batches.map (rebaseBatch move)).filter fun batch => !batch.findings.isEmpty).map
      batchBytes).sum = (batches.map (·.movedBytes move)).sum := by
  rw [sum_filter_nonempty, List.map_map]
  congr 1
  refine List.map_congr_left fun batch _ => ?_
  simp only [Function.comp_apply, rebaseBatch_isEmpty, batchBytes_rebaseBatch,
    ExternalFindingBatch.movedBytes]

theorem sum_length_rebased (move : Pointer → Option Pointer)
    (batches : List ExternalFindingBatch) :
    (((batches.map (rebaseBatch move)).filter fun batch => !batch.findings.isEmpty).map
      (·.findings.length)).sum ≤ (batches.map (·.findings.length)).sum := by
  refine Nat.le_trans ((List.filter_sublist.map _).sum_le_sum fun _ _ => Nat.zero_le _) ?_
  rw [List.map_map]
  refine List.sum_le_sum fun batch _ => ?_
  have hperm := (relocated_rebaseBatch move batch).findings
  exact Nat.le_trans (Nat.le_of_eq hperm.length_eq) (List.length_filterMap_le _ _)

end Moved

namespace Form

variable {form form' : Form}

/-! ## What is stored -/

structure StoreInvariant (form : Form) : Prop where
  sources : BySource form.externalFindingBatches
  batches : ∀ batch ∈ form.externalFindingBatches, batch.findings ≠ [] ∧
    batch.revision = form.dataRevision ∧
    batch.findings.Pairwise fun a b => (compareExternalFindings a b).isLT = true
  count : (form.externalFindingBatches.map (·.findings.length)).sum ≤
    form.externalFindingLimits.maxActiveFindings
  bytes : (form.externalFindingBatches.map batchBytes).sum ≤
    form.externalFindingLimits.maxActiveBytes
  counted : ∀ batch message, (form.applyExternalFindings batch).2 ≠ .error (.panic message)

theorem checkParameters_error {limits : ExternalFindingLimits} {findings : List ExternalFinding}
    {message : String} : checkParameters limits findings ≠ .error (.panic message) := by
  induction findings with
  | nil => exact nofun
  | cons finding findings ih =>
    rw [checkParameters]
    split
    · exact nofun
    · exact ih

/-- Stored batches within the limit are counted, whatever comes in. -/
theorem counted_of_bytes (hne : ∀ batch ∈ form.externalFindingBatches, batch.findings ≠ [])
    (hbytes : (form.externalFindingBatches.map batchBytes).sum ≤
      form.externalFindingLimits.maxActiveBytes) (batch : ExternalFindingBatch) (message : String) :
    (form.applyExternalFindings batch).2 ≠ .error (.panic message) := by
  intro h
  have hcheck : form.checkExternalFindings batch = .error (.panic message) := by
    unfold applyExternalFindings attempt at h
    split at h
    · rename_i error herror
      rw [herror]
      exact congrArg Except.error (Except.error.inj h)
    · cases h
  have hsub := retainedBatches_sublist form.externalFindingBatches batch.source
  have hretained := retainedBytes_eq (fun b hb => hne b (hsub.subset hb))
    (Nat.le_trans ((hsub.map batchBytes).sum_le_sum fun _ _ => Nat.zero_le _) hbytes)
  unfold checkExternalFindings at hcheck
  dsimp only at hcheck
  split at hcheck
  · cases hcheck
  split at hcheck
  · cases hcheck
  rcases bind_eq_error.mp hcheck with hparameters | ⟨_, _, hcheck⟩
  · exact checkParameters_error hparameters
  split at hcheck
  · cases hcheck
  split at hcheck
  · cases hcheck
  split at hcheck
  · cases hcheck
  rw [hretained] at hcheck
  dsimp only at hcheck
  split at hcheck
  · cases hcheck
  · cases hcheck

theorem StoreInvariant.of_store (hsources : BySource form.externalFindingBatches)
    (hbatches : ∀ batch ∈ form.externalFindingBatches, batch.findings ≠ [] ∧
      batch.revision = form.dataRevision ∧
      batch.findings.Pairwise fun a b => (compareExternalFindings a b).isLT = true)
    (hcount : (form.externalFindingBatches.map (·.findings.length)).sum ≤
      form.externalFindingLimits.maxActiveFindings)
    (hbytes : (form.externalFindingBatches.map batchBytes).sum ≤
      form.externalFindingLimits.maxActiveBytes) : form.StoreInvariant :=
  ⟨hsources, hbatches, hcount, hbytes,
    counted_of_bytes (fun batch hb => (hbatches batch hb).1) hbytes⟩

/-! ## Steps -/

/-- Findings that the operation moves stay apart and within the limit. -/
def StepFits (form : Form) (operation : Operation) : Prop :=
  ∀ move, form.Moves operation move →
    (∀ batch ∈ form.externalFindingBatches, batch.StaysApart move) ∧
    (form.externalFindingBatches.map (·.movedBytes move)).sum ≤
      form.externalFindingLimits.maxActiveBytes

/-- Parameters of stored findings are JSON values. -/
def ParametersWF (form : Form) : Prop :=
  ∀ batch ∈ form.externalFindingBatches, ∀ f ∈ batch.findings, f.parameters.WF

variable {moves : (Pointer → Option Pointer) → Prop}

theorem StoreStep.parametersWF (hsources : BySource form.externalFindingBatches)
    (h : form.StoreStep moves form') (hwf : form.ParametersWF) : form'.ParametersWF := by
  intro batch hb
  cases h with
  | cleared h =>
    rw [h] at hb
    cases hb
  | kept h _ =>
    rw [h] at hb
    exact hwf batch hb
  | relocated move _ h =>
    rw [h.batches] at hb
    obtain ⟨original, hmem, rfl⟩ := List.mem_map.mp (List.mem_filter.mp hb).1
    intro f hf
    exact rebased_wf (hwf original hmem) f ((relocated_rebaseBatch move original).findings.subset hf)
  | filed incoming stored haccepted hincoming h =>
    rw [h, withBatch_batches, hsources.mem_replaceBatch] at hb
    rcases hb with ⟨hmem, _⟩ | ⟨rfl, _⟩
    · exact hwf batch hmem
    · intro f hf
      rw [haccepted.stored_eq] at hf
      exact hincoming f (mem_normalFindings.mp hf)

theorem reachable_parametersWF (h : formSystem.Reachable form) : form.ParametersWF := by
  induction h with
  | init hinit =>
    obtain ⟨builder, id, hwf, hb⟩ := hinit
    obtain ⟨_, _, _, _, rfl⟩ := build_ok hwf hb
    exact nofun
  | step operation hreachable ih =>
    exact (step_store (reachable_inv hreachable) (reachable_ordered hreachable)
      operation).parametersWF (reachable_bySource hreachable) ih

/-- Filing an accepted batch needs no condition: its bytes and its findings have been counted. -/
theorem filed_storeInvariant (hstore : form.StoreInvariant) {batch stored : ExternalFindingBatch}
    (haccepted : form.Accepted batch stored) (hwf : ∀ f ∈ batch.findings, f.parameters.WF) :
    (form.withBatch stored).StoreInvariant := by
  have hstored : stored = normalBatch batch := haccepted.stored_eq
  have hperm := hstore.sources.replaceBatch_perm stored
  have hsource : stored.source = batch.source := by rw [hstored]; rfl
  have hsub := retainedBatches_sublist form.externalFindingBatches batch.source
  have hlimits : (form.withBatch stored).externalFindingLimits = form.externalFindingLimits := by
    unfold withBatch
    dsimp only
    split <;> rfl
  refine .of_store ?_ ?_ ?_ ?_
  · rw [withBatch_batches]
    exact hstore.sources.replaceBatch_bySource stored
  · intro b hb
    rw [withBatch_batches, hstore.sources.mem_replaceBatch] at hb
    rw [withBatch_dataRevision]
    rcases hb with ⟨hmem, _⟩ | ⟨rfl, hne⟩
    · exact hstore.batches b hmem
    · refine ⟨hne, ?_, ?_⟩
      · rw [hstored]
        exact haccepted.revision
      · rw [hstored]
        exact normalFindings_pairwise hwf
  · rw [withBatch_batches, hlimits, (hperm.map _).sum_eq, hsource, List.map_append,
      List.sum_append]
    refine Nat.le_trans (Nat.add_le_add_left ?_ _) haccepted.count
    split
    · exact Nat.zero_le _
    · exact Nat.le_of_eq List.sum_singleton
  · rw [withBatch_batches, hlimits, (hperm.map _).sum_eq, hsource, List.map_append,
      List.sum_append]
    obtain ⟨incoming, retained, hincoming, hretained, hle⟩ := haccepted.bytes
    have hsum := sum_of_retainedBytes (fun b hb => (hstore.batches b (hsub.subset hb)).1) hretained
    refine Nat.le_trans (Nat.add_le_add (Nat.le_of_eq hsum.symm) ?_) hle
    split
    · exact Nat.zero_le _
    · rename_i hempty
      have hne : stored.findings ≠ [] := by simpa using hempty
      rw [((activeBytes_eq_ok hne).mp hincoming).1]
      exact Nat.le_of_eq List.sum_singleton

theorem Relocates.storeInvariant_iff {move : Pointer → Option Pointer}
    (h : form.Relocates move form')
    (hlimits : form'.externalFindingLimits = form.externalFindingLimits)
    (hstore : form.StoreInvariant) (hwf : form.ParametersWF) : form'.StoreInvariant ↔
      (∀ batch ∈ form.externalFindingBatches, batch.StaysApart move) ∧
      (form.externalFindingBatches.map (·.movedBytes move)).sum ≤
        form.externalFindingLimits.maxActiveBytes := by
  have hbytes : (form'.externalFindingBatches.map batchBytes).sum =
      (form.externalFindingBatches.map (·.movedBytes move)).sum := by
    rw [h.batches]
    exact sum_batchBytes_rebased move _
  constructor
  · intro hstore'
    refine ⟨fun batch hb => ?_, ?_⟩
    · rw [← rebaseBatch_apart (hwf batch hb)]
      by_cases hempty : (rebaseBatch move batch).findings = []
      · rw [hempty]
        exact .nil
      · refine (hstore'.batches (rebaseBatch move batch) ?_).2.2
        rw [h.batches]
        exact List.mem_filter.mpr ⟨List.mem_map_of_mem hb, by simpa using hempty⟩
    · rw [← hbytes, ← hlimits]
      exact hstore'.bytes
  · rintro ⟨hapart, hfits⟩
    refine .of_store ?_ ?_ ?_ ?_
    · rw [h.batches]
      have hmoved : BySource (form.externalFindingBatches.map (rebaseBatch move)) :=
        hstore.sources.of_map fun _ => rfl
      exact hmoved.sublist List.filter_sublist
    · intro b hb
      rw [h.batches] at hb
      obtain ⟨hmem, hne⟩ := List.mem_filter.mp hb
      obtain ⟨batch, hbatch, rfl⟩ := List.mem_map.mp hmem
      refine ⟨by simpa using hne, ?_, ?_⟩
      · rw [h.data]
        exact (hstore.batches batch hbatch).2.1
      · exact (rebaseBatch_apart (hwf batch hbatch)).mpr (hapart batch hbatch)
    · rw [h.batches, hlimits]
      exact Nat.le_trans (sum_length_rebased move _) hstore.count
    · rw [hbytes, hlimits]
      exact hfits

theorem step_storeInvariant (h : formSystem.Reachable form) (operation : WellFormedOperation)
    (hfits : form.StepFits operation.1) (hstore : form.StoreInvariant) :
    (form.step operation.1).1.StoreInvariant := by
  have hinv := reachable_inv h
  have hlimits := (step_effect hinv operation).externalFindingLimits
  have hstep := step_store hinv (reachable_ordered h) operation
  have hwf := reachable_parametersWF h
  generalize (form.step operation.1).1 = form' at hlimits hstep
  cases hstep with
  | cleared hnone =>
    refine .of_store ?_ ?_ ?_ ?_ <;> rw [hnone]
    · exact .nil
    · exact nofun
    · exact Nat.zero_le _
    · exact Nat.zero_le _
  | kept hsame hdata =>
    refine .of_store ?_ ?_ ?_ ?_ <;> rw [hsame]
    · exact hstore.sources
    · rw [hdata]
      exact hstore.batches
    · rw [hlimits]
      exact hstore.count
    · rw [hlimits]
      exact hstore.bytes
  | relocated move hmove hmoved =>
    exact (hmoved.storeInvariant_iff hlimits hstore hwf).mpr (hfits move hmove)
  | filed batch stored haccepted hincoming hfiled =>
    rw [hfiled]
    exact filed_storeInvariant hstore haccepted hincoming

theorem init_storeInvariant (h : formSystem.init form) : form.StoreInvariant := by
  obtain ⟨builder, id, hwf, hb⟩ := h
  obtain ⟨_, _, _, _, rfl⟩ := build_ok hwf hb
  exact .of_store .nil nofun (Nat.zero_le _) (Nat.zero_le _)

/-- Along every run whose steps fit, and no longer from the first step that does not. -/
theorem store_limits_exact (hinit : formSystem.init form) :
    (∀ operations : List WellFormedOperation,
      (∀ pre operation post, operations = pre ++ operation :: post →
        (formSystem.run form pre).StepFits operation.1) →
      (formSystem.run form operations).StoreInvariant) ∧
    ∀ (operations : List WellFormedOperation) (operation : WellFormedOperation),
      (formSystem.run form operations).StoreInvariant →
      ((formSystem.run form (operations ++ [operation])).StoreInvariant ↔
        (formSystem.run form operations).StepFits operation.1) := by
  have hreachable := TransitionSystem.Reachable.init hinit
  refine ⟨fun operations hfits => ?_, fun operations operation hstore => ?_⟩
  · exact TransitionSystem.run_stable_of
      (fun form operation h hfits hstore => step_storeInvariant h operation hfits hstore)
      hreachable (init_storeInvariant hinit) operations hfits
  · have h := hreachable.run operations
    rw [TransitionSystem.run, List.foldl_append]
    change (((formSystem.run form operations).step operation.1).1.StoreInvariant) ↔ _
    generalize formSystem.run form operations = form' at hstore h
    refine ⟨fun hstore' move hmove => ?_, fun hfits => step_storeInvariant h operation hfits hstore⟩
    have hinv := reachable_inv h
    exact ((step_relocates hinv (reachable_ordered h) operation hmove).storeInvariant_iff
      (step_effect hinv operation).externalFindingLimits hstore (reachable_parametersWF h)).mp
        hstore'

end Form

/-! ## Equal items -/

namespace Sample

def reviewAt (index : String) : ExternalFinding := ⟨"review", ["a", index], .object [], true⟩

def reviews (revision : Nat) (indices : List String) : ExternalFindingBatch :=
  ⟨"server", ⟨0, revision⟩, indices.map reviewAt⟩

theorem reviews_wf (revision : Nat) (indices : List String) :
    (Operation.applyExternalFindings (reviews revision indices)).WF := by
  intro finding hf
  obtain ⟨index, _, rfl⟩ := List.mem_map.mp hf
  exact (by decide : Value.WF (.object []))

theorem pair_init : formSystem.init pair :=
  ⟨{ definition := strings, formData := formData [.string "", .string ""] }, 0, by decide, rfl⟩

def review₁ : WellFormedOperation := ⟨.applyExternalFindings (reviews 0 ["1"]), reviews_wf _ _⟩

def moveSecondUp : WellFormedOperation := ⟨.moveItem .up (pair.identity 1) (pair.item 2), trivial⟩

/-- The first item is gone, a third one has its value, and both items have the same finding. -/
def alike : Form :=
  formSystem.run pair [⟨.removeItem (pair.identity 1) (pair.item 1), trivial⟩,
    ⟨.appendItem (pair.identity 1), trivial⟩,
    ⟨.applyExternalFindings (reviews 2 ["0", "1"]), reviews_wf _ _⟩]

/-- A list of eleven equal strings, with room for one finding at a place of one digit. -/
def eleven : FormBuilder where
  definition := strings
  formData := formData (List.replicate 11 (.string ""))
  externalFindingLimits := { maxActiveBytes := 18 }

end Sample

namespace Form

open Sample

theorem store_limits_exact_moved :
    (formSystem.run pair [review₁, moveSecondUp]).StoreInvariant := by
  refine (store_limits_exact pair_init).1 [review₁, moveSecondUp] fun pre operation post heq => ?_
  simp only [List.cons_eq_append_iff] at heq
  rcases heq with ⟨rfl, heq⟩ | ⟨pre, rfl, ⟨rfl, heq⟩ | ⟨pre, rfl, heq⟩⟩
  · obtain ⟨rfl, _⟩ := List.cons.inj heq
    intro move hmove
    cases hmove.2
  · obtain ⟨rfl, _⟩ := List.cons.inj heq
    intro move hmove
    obtain rfl := Option.some.inj (hmove.2.symm.trans rfl)
    refine ⟨fun batch hb => ?_, by decide +kernel⟩
    have hbatches : (formSystem.run pair [review₁]).externalFindingBatches = [reviews 0 ["1"]] := by
      decide +kernel
    rw [hbatches] at hb
    obtain rfl := List.mem_singleton.mp hb
    exact List.pairwise_singleton _ _
  · simp at heq

/-- A reset stores one finding twice, and a move stores more bytes than the next call allows. -/
theorem store_limits_exceeded :
    (formSystem.Reachable alike ∧
      (alike.step .reset).1.externalFindingBatches = [reviews 2 ["1", "1"]] ∧
      ¬ (alike.step .reset).1.StoreInvariant) ∧
    ∃ form, eleven.build 0 = .ok form ∧
      ((form.applyExternalFindings (reviews 0 ["9"])).1.moveItem .down (form.identity 1)
          (form.item 10)).1.externalFindingBatches = [reviews 0 ["10"]] ∧
      (((form.applyExternalFindings (reviews 0 ["9"])).1.moveItem .down (form.identity 1)
          (form.item 10)).1.applyExternalFindings ⟨"lint", ⟨0, 0⟩, []⟩).2 = .error (.panic
            "stored external finding batches satisfy the active byte limit") := by
  have hbatches : (alike.step .reset).1.externalFindingBatches = [reviews 2 ["1", "1"]] := by
    decide +kernel
  refine ⟨⟨pair_reachable.run _, hbatches, fun h => ?_⟩, _, rfl, ?_, ?_⟩
  · have hsorted := (h.batches _ (hbatches ▸ List.mem_singleton_self _)).2.2
    exact absurd hsorted (by decide)
  · decide +kernel
  · decide +kernel

end Form

end Schemaform
