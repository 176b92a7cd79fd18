import Schemaform.Form.Store
import Schemaform.Json.EncodeSpec
import Schemaform.Lib.Sort

/-!
# Form.Register

External batches as a register for each source.

* `normalFindings_congr`: a batch is stored as its set of findings.
* `applyAll`: calls of `applyExternalFindings`, rejected ones included.
* `lastAccepted`: the findings of the last accepted batch of a source.
* `mem_applyAll`: what is stored after the calls, by induction on them.
* `external_register`.
-/

namespace Schemaform

/-! ## Findings of a batch -/

def normalFindings (findings : List ExternalFinding) : List ExternalFinding :=
  dedupFindings (sortExternalFindings findings)

theorem compareExternalFindings_eq {a b : ExternalFinding} (ha : a.parameters.WF)
    (hb : b.parameters.WF) (h : compareExternalFindings a b = .eq) : a = b := by
  simp only [compareExternalFindings, comparePointers, Ordering.then_eq_eq] at h
  obtain ⟨⟨⟨hlocation, hcode⟩, hblocking⟩, hparameters⟩ := h
  cases a
  cases b
  simp only [ExternalFinding.mk.injEq]
  exact ⟨compare_eq_iff_eq.mp hcode, Pointer.text_inj (compare_eq_iff_eq.mp hlocation),
    Value.text_inj ha hb (compare_eq_iff_eq.mp hparameters), compare_eq_iff_eq.mp hblocking⟩

theorem mem_normalFindings {findings : List ExternalFinding} {f : ExternalFinding} :
    f ∈ normalFindings findings ↔ f ∈ findings := by
  rw [normalFindings, dedupFindings, mem_destutter, sortExternalFindings, List.mem_insertionSort]

theorem normalFindings_pairwise {findings : List ExternalFinding}
    (hwf : ∀ f ∈ findings, f.parameters.WF) :
    (normalFindings findings).Pairwise fun a b => (compareExternalFindings a b).isLT = true := by
  refine pairwise_isLT_destutter (fun a ha b hb heq => ?_)
    (Form.sortExternalFindings_pairwise findings)
  have hmem {f : ExternalFinding} (hf : f ∈ sortExternalFindings findings) : f ∈ findings := by
    rwa [sortExternalFindings, List.mem_insertionSort] at hf
  exact compareExternalFindings_eq (hwf a (hmem ha)) (hwf b (hmem hb)) heq

/-- Order and repetition of the findings do not matter. -/
theorem normalFindings_congr {findings findings' : List ExternalFinding}
    (hwf : ∀ f ∈ findings, f.parameters.WF) (h : ∀ f, f ∈ findings ↔ f ∈ findings') :
    normalFindings findings = normalFindings findings' := by
  refine eq_of_pairwise_isLT (normalFindings_pairwise hwf)
    (normalFindings_pairwise fun f hf => hwf f ((h f).mpr hf)) fun f => ?_
  rw [mem_normalFindings, mem_normalFindings, h]

theorem normalFindings_ne_nil {findings : List ExternalFinding} :
    normalFindings findings ≠ [] ↔ findings ≠ [] := by
  rw [← List.length_pos_iff_ne_nil, ← List.length_pos_iff_ne_nil, List.length_pos_iff_exists_mem,
    List.length_pos_iff_exists_mem]
  simp only [mem_normalFindings]

namespace Form

variable {form : Form} {batch : ExternalFindingBatch}

/-! ## One call -/

/-- The batch passes every check in this state. -/
def Accepts (form : Form) (batch : ExternalFindingBatch) : Prop :=
  (form.applyExternalFindings batch).2.isOk = true

instance : Decidable (form.Accepts batch) := inferInstanceAs (Decidable (_ = true))

/-- The batch as it is stored. -/
def normalBatch (batch : ExternalFindingBatch) : ExternalFindingBatch :=
  { batch with findings := normalFindings batch.findings }

theorem apply_accepted (h : form.Accepts batch) : batch.revision = form.dataRevision ∧
    (form.applyExternalFindings batch).1 = form.withBatch (normalBatch batch) := by
  unfold Accepts at h
  cases hresult : form.applyExternalFindings batch with
  | mk form' r =>
    rw [hresult] at h
    rcases applyExternalFindings_cases hresult with ⟨-, _, rfl⟩ | ⟨stored, hc, rfl, -⟩
    · cases h
    · have haccepted := checkExternalFindings_accepted hc
      exact ⟨haccepted.revision, by rw [haccepted.stored_eq]; rfl⟩

theorem apply_rejected (h : ¬ form.Accepts batch) : (form.applyExternalFindings batch).1 = form := by
  unfold Accepts at h
  cases hresult : form.applyExternalFindings batch with
  | mk form' r =>
    rw [hresult] at h
    rcases applyExternalFindings_cases hresult with ⟨rfl, -⟩ | ⟨stored, -, -, rfl⟩
    · rfl
    · exact absurd rfl h

theorem withBatch_dataRevision (form : Form) (batch : ExternalFindingBatch) :
    (form.withBatch batch).dataRevision = form.dataRevision := by
  unfold withBatch
  dsimp only
  split <;> rfl

theorem apply_dataRevision (form : Form) (batch : ExternalFindingBatch) :
    (form.applyExternalFindings batch).1.dataRevision = form.dataRevision := by
  by_cases h : form.Accepts batch
  · rw [(apply_accepted h).2, withBatch_dataRevision]
  · rw [apply_rejected h]

theorem apply_bySource (h : BySource form.externalFindingBatches) (batch : ExternalFindingBatch) :
    BySource (form.applyExternalFindings batch).1.externalFindingBatches := by
  by_cases ha : form.Accepts batch
  · rw [(apply_accepted ha).2, withBatch_batches]
    exact h.replaceBatch_bySource _
  · rwa [apply_rejected ha]

/-! ## A sequence of calls -/

def applyAll (form : Form) (calls : List ExternalFindingBatch) : Form :=
  calls.foldl (fun form batch => (form.applyExternalFindings batch).1) form

/-- The findings of the last batch of the source that was accepted, as they came. -/
def lastAccepted (source : String) : Form → List ExternalFindingBatch → Option (List ExternalFinding)
  | _, [] => none
  | form, batch :: calls =>
    (lastAccepted source (form.applyExternalFindings batch).1 calls).or
      (if form.Accepts batch ∧ batch.source = source then some batch.findings else none)

/-- What a source holds: what it did, or the findings filed last. -/
def Holds (form : Form) (b : ExternalFindingBatch) : Option (List ExternalFinding) → Prop
  | none => b ∈ form.externalFindingBatches
  | some findings => findings ≠ [] ∧
    b = ⟨b.source, form.dataRevision, normalFindings findings⟩

theorem mem_apply (h : BySource form.externalFindingBatches) (batch b : ExternalFindingBatch) :
    b ∈ (form.applyExternalFindings batch).1.externalFindingBatches ↔
      form.Holds b (if form.Accepts batch ∧ batch.source = b.source then some batch.findings
        else none) := by
  by_cases ha : form.Accepts batch
  · obtain ⟨hrevision, hf⟩ := apply_accepted ha
    rw [hf, withBatch_batches, h.mem_replaceBatch]
    by_cases hs : batch.source = b.source
    · rw [if_pos ⟨ha, hs⟩, Holds]
      constructor
      · rintro (⟨-, hne⟩ | ⟨rfl, hne⟩)
        · exact absurd hs.symm hne
        · exact ⟨normalFindings_ne_nil.mp hne, by rw [← hrevision]; rfl⟩
      · rintro ⟨hne, hb⟩
        refine .inr ⟨?_, normalFindings_ne_nil.mpr hne⟩
        rw [hb, ← hrevision, ← hs]
        rfl
    · rw [if_neg fun hc => hs hc.2, Holds]
      constructor
      · rintro (⟨hb, -⟩ | ⟨rfl, -⟩)
        · exact hb
        · exact absurd rfl hs
      · exact fun hb => .inl ⟨hb, Ne.symm hs⟩
  · rw [apply_rejected ha, if_neg fun hc => ha hc.1, Holds]

/-- Every source holds the last batch it was given, and what it held where it was given none. -/
theorem mem_applyAll (h : BySource form.externalFindingBatches) (calls : List ExternalFindingBatch)
    (b : ExternalFindingBatch) : b ∈ (form.applyAll calls).externalFindingBatches ↔
      form.Holds b (form.lastAccepted b.source calls) := by
  induction calls generalizing form with
  | nil => exact Iff.rfl
  | cons batch calls ih =>
    have hnext := ih (apply_bySource h batch)
    change b ∈ ((form.applyExternalFindings batch).1.applyAll calls).externalFindingBatches ↔ _
    rw [hnext, lastAccepted]
    cases lastAccepted b.source (form.applyExternalFindings batch).1 calls with
    | none => exact mem_apply h batch b
    | some findings => rw [Option.some_or, Holds, Holds, apply_dataRevision]

theorem applyAll_bySource (h : BySource form.externalFindingBatches)
    (calls : List ExternalFindingBatch) : BySource (form.applyAll calls).externalFindingBatches := by
  induction calls generalizing form with
  | nil => exact h
  | cons batch calls ih => exact ih (apply_bySource h batch)

theorem lastAccepted_mem {source : String} {calls : List ExternalFindingBatch}
    {findings : List ExternalFinding} (h : form.lastAccepted source calls = some findings) :
    ∃ batch ∈ calls, batch.findings = findings := by
  induction calls generalizing form with
  | nil => cases h
  | cons batch calls ih =>
    rw [lastAccepted] at h
    rcases Option.or_eq_some_iff.mp h with h | ⟨-, h⟩
    · obtain ⟨batch', hmem, hfindings⟩ := ih h
      exact ⟨batch', List.mem_cons_of_mem _ hmem, hfindings⟩
    · split at h
      · exact ⟨batch, List.mem_cons_self, Option.some.inj h⟩
      · cases h

/-! ## The register -/

/-- The same set of findings, or none. -/
def SameFindings : Option (List ExternalFinding) → Option (List ExternalFinding) → Prop :=
  Option.Rel fun findings findings' => ∀ f, f ∈ findings ↔ f ∈ findings'

theorem Holds.congr {b : ExternalFindingBatch} {held held' : Option (List ExternalFinding)}
    (hwf : ∀ findings, held = some findings → ∀ f ∈ findings, f.parameters.WF)
    (h : SameFindings held held') : form.Holds b held ↔ form.Holds b held' := by
  cases h with
  | none => exact Iff.rfl
  | @some findings findings' h =>
    have hnormal := normalFindings_congr (hwf findings rfl) h
    have hne : findings ≠ [] ↔ findings' ≠ [] := by
      rw [← normalFindings_ne_nil, hnormal, normalFindings_ne_nil]
    rw [Holds, Holds, hnormal, hne]

theorem applyAll_congr (h : BySource form.externalFindingBatches)
    {calls calls' : List ExternalFindingBatch}
    (hwf : ∀ batch ∈ calls, ∀ f ∈ batch.findings, f.parameters.WF)
    (hsame : ∀ source, SameFindings (form.lastAccepted source calls)
      (form.lastAccepted source calls')) :
    (form.applyAll calls).externalFindingBatches =
      (form.applyAll calls').externalFindingBatches := by
  refine (applyAll_bySource h calls).ext (applyAll_bySource h calls') fun b => ?_
  rw [mem_applyAll h, mem_applyAll h]
  refine Holds.congr (fun findings hfindings => ?_) (hsame b.source)
  obtain ⟨batch, hmem, rfl⟩ := lastAccepted_mem hfindings
  exact hwf batch hmem

/-- A batch that is stored already changes nothing. -/
theorem replaceBatch_stored {batches : List ExternalFindingBatch} (h : BySource batches)
    (batch : ExternalFindingBatch) :
    replaceBatch (replaceBatch batches batch).1 batch = ((replaceBatch batches batch).1, false) := by
  have hsources := h.replaceBatch_bySource batch
  have hmem := h.mem_replaceBatch batch
  generalize (replaceBatch batches batch).1 = stored at hsources hmem
  unfold replaceBatch
  split
  · rename_i index hi
    obtain ⟨before, old, after, hsplit, hlength, hsource, -⟩ := hsources.split hi
    have hold : old ∈ stored := by simp [hsplit]
    rcases (hmem old).mp hold with ⟨-, hne⟩ | ⟨rfl, hne⟩
    · exact absurd hsource hne
    · rw [if_neg (by simpa using hne), if_pos]
      rw [hsplit, ← hlength, List.getElem?_append_right (Nat.le_refl _)]
      simp
  · rename_i hi
    have hnone : ∀ c ∈ stored, c.source ≠ batch.source := by
      simpa using List.findIdx?_eq_none_iff.mp hi
    split
    · rfl
    · rename_i hne
      exact absurd rfl (hnone batch ((hmem batch).mpr (.inr ⟨rfl, by simpa using hne⟩)))

/-- Applying a batch again is a no-op. -/
theorem apply_again (h : BySource form.externalFindingBatches) (batch : ExternalFindingBatch) :
    ((form.applyExternalFindings batch).1.applyExternalFindings batch).1 =
      (form.applyExternalFindings batch).1 := by
  by_cases ha : form.Accepts batch
  · by_cases hagain : (form.applyExternalFindings batch).1.Accepts batch
    · rw [(apply_accepted hagain).2]
      have hstored : (form.applyExternalFindings batch).1.externalFindingBatches =
          (replaceBatch form.externalFindingBatches (normalBatch batch)).1 := by
        rw [(apply_accepted ha).2, withBatch_batches]
      unfold withBatch
      rw [hstored, replaceBatch_stored h, ← hstored]
      rfl
    · rw [apply_rejected hagain]
  · rw [apply_rejected ha, apply_rejected ha]

/-- For every reachable form and every sequence of calls on it. -/
theorem external_register (h : formSystem.Reachable form) :
    (∀ (calls : List ExternalFindingBatch) (b : ExternalFindingBatch),
      b ∈ (form.applyAll calls).externalFindingBatches ↔
        form.Holds b (form.lastAccepted b.source calls)) ∧
    (∀ calls calls' : List ExternalFindingBatch,
      (∀ batch ∈ calls, ∀ f ∈ batch.findings, f.parameters.WF) →
      (∀ source, SameFindings (form.lastAccepted source calls)
        (form.lastAccepted source calls')) →
      (form.applyAll calls).externalFindingBatches =
        (form.applyAll calls').externalFindingBatches) ∧
    (∀ batch : ExternalFindingBatch,
      ((form.applyExternalFindings batch).1.applyExternalFindings batch).1.externalFindingBatches =
        (form.applyExternalFindings batch).1.externalFindingBatches ∧
      ((form.applyExternalFindings batch).1.applyExternalFindings batch).1.stateRevision =
        (form.applyExternalFindings batch).1.stateRevision) ∧
    ∀ batch batch' : ExternalFindingBatch, batch.source ≠ batch'.source →
      (∀ f ∈ batch.findings ++ batch'.findings, f.parameters.WF) →
      form.Accepts batch → (form.applyExternalFindings batch).1.Accepts batch' →
      form.Accepts batch' → (form.applyExternalFindings batch').1.Accepts batch →
      (form.applyAll [batch, batch']).externalFindingBatches =
        (form.applyAll [batch', batch]).externalFindingBatches := by
  have hsources := reachable_bySource h
  refine ⟨mem_applyAll hsources, fun calls calls' hwf hsame => applyAll_congr hsources hwf hsame,
    fun batch => ?_, ?_⟩
  · rw [apply_again hsources batch]
    exact ⟨rfl, rfl⟩
  · intro batch batch' hne hwf hfirst hsecond hfirst' hsecond'
    refine applyAll_congr hsources ?_ fun source => ?_
    · intro b hb f hf
      rcases List.mem_pair.mp hb with rfl | rfl
      · exact hwf f (List.mem_append_left _ hf)
      · exact hwf f (List.mem_append_right _ hf)
    · have hrefl (held : Option (List ExternalFinding)) : SameFindings held held := by
        cases held with
        | none => exact .none
        | some findings => exact .some fun _ => Iff.rfl
      simp only [lastAccepted, hfirst, hsecond, hfirst', hsecond', true_and, Option.none_or]
      by_cases hb : batch.source = source
      · rw [if_pos hb, if_neg fun hb' => hne (hb.trans hb'.symm)]
        exact hrefl _
      · rw [if_neg hb]
        rw [Option.or_none, Option.none_or]
        exact hrefl _

end Form

/-! ## A repeated finding -/

namespace Sample

def note : ExternalFinding := ⟨"late", ["a"], .null, false⟩

def notes : ExternalFindingBatch := ⟨"server", ⟨0, 0⟩, [note, note]⟩

theorem external_register_notes :
    ((empty.applyExternalFindings notes).1.applyExternalFindings notes).1.externalFindingBatches =
      [⟨"server", ⟨0, 0⟩, [note]⟩] ∧
    ((empty.applyExternalFindings notes).1.applyExternalFindings notes).1.stateRevision =
      ⟨0, 1⟩ := by
  have hagain := (Form.external_register empty_reachable).2.2.1 notes
  rw [hagain.1, hagain.2]
  decide +kernel

end Sample

end Schemaform
