import Schemaform.Engine.EditSpec

/-!
# Engine.StructureSpec

Edits of structures: a write anywhere in the data, fresh items for the arrays at or below it, no
edit state at or below it.

* `freshArrayItems_*`: fresh items are new, in step with the data, and off the counter.
* `reconcile_*`, `clearEditStateBelow_*`: the two halves of the repair after a write.
* `Inv.writeStructure`: the repaired form keeps `Form.Inv`, for a write that lies below no control.
* `materializeStructure_*`, `replaceStructure_*`, `removeValue_*`.
-/

namespace Schemaform.Engine

open ListEdit

/-! ## Fresh items -/

theorem freshArrayItems_identities (definition : ArrayDefinition) (count n : Nat) :
    (freshArrayItems definition count n).1.map (·.identity) = List.range' n count := by
  simp only [freshArrayItems, List.map_map]
  exact List.map_id _

theorem freshArrayItems_length (definition : ArrayDefinition) (count n : Nat) :
    (freshArrayItems definition count n).1.length = count := by
  simp [freshArrayItems]

theorem mem_freshArrayItems {definition : ArrayDefinition} {count n : Nat} {item : ArrayItemState}
    (h : item ∈ (freshArrayItems definition count n).1) :
    ∃ identity, item = ArrayItemState.new identity definition := by
  obtain ⟨identity, _, rfl⟩ := List.mem_map.mp h
  exact ⟨identity, rfl⟩

theorem new_controls (identity : Nat) (definition : ArrayDefinition) :
    (ArrayItemState.new identity definition).controls.map (·.definition) =
      definition.itemTemplate.controls := by
  simp only [ArrayItemState.new, List.map_map]
  exact List.map_id _

theorem mem_new_controls {identity : Nat} {definition : ArrayDefinition} {c : ControlState}
    (h : c ∈ (ArrayItemState.new identity definition).controls) : c.hasEditState = false := by
  obtain ⟨d, _, rfl⟩ := List.mem_map.mp h
  rfl

theorem coherent_of_clear {numbers : NumberInput} {current : Option Value} {c : ControlState}
    (h : c.hasEditState = false) : ControlCoherent numbers current c := by
  simp only [ControlState.hasEditState, Bool.or_eq_false_iff, Option.isSome_eq_false_iff,
    Option.isNone_iff_eq_none] at h
  exact ControlCoherent.of_clear h.1 h.2

/-- Identities taken off the counter are distinct and not below it. -/
theorem range'_fresh (l : List Nat) (n count : Nat) : (List.range' n count).Nodup ∧
    ∀ i ∈ List.range' n count, i ∈ l ∨ n ≤ i ∧ i < n + count := by
  refine ⟨List.nodup_range', fun i hi => .inr ?_⟩
  obtain ⟨j, hj, rfl⟩ := List.mem_range'.mp hi
  omega

namespace Form

/-! ## Reconciliation -/

section Reconcile

variable (binding : Pointer) (formData : Value)

theorem reconcileArrays_definitions (arrays : List ArrayState) (n : Nat) :
    (reconcileArrays binding formData arrays n).1.map (·.definition) =
      arrays.map (·.definition) := by
  induction arrays generalizing n with
  | nil => rfl
  | cons a arrays ih =>
    simp only [reconcileArrays]
    split <;> simp only [List.map_cons, ih]

/-- Arrays away from the binding stay as they are, the others get fresh items. -/
theorem mem_reconcileArrays {arrays : List ArrayState} {n : Nat} {a' : ArrayState}
    (h : a' ∈ (reconcileArrays binding formData arrays n).1) :
    (a' ∈ arrays ∧ a'.definition.binding.startsWith binding = false) ∨
    a'.definition.binding.startsWith binding = true ∧
      ∃ m, a'.items = (freshArrayItemsForData a'.definition formData m).1 := by
  induction arrays generalizing n with
  | nil => cases h
  | cons a arrays ih =>
    simp only [reconcileArrays] at h
    split at h
    · rename_i hs
      rcases List.mem_cons.mp h with rfl | h
      · exact .inr ⟨hs, n, rfl⟩
      · exact (ih h).imp_left fun h => ⟨List.mem_cons_of_mem _ h.1, h.2⟩
    · rename_i hs
      rcases List.mem_cons.mp h with rfl | h
      · exact .inl ⟨List.mem_cons_self, by simpa using hs⟩
      · exact (ih h).imp_left fun h => ⟨List.mem_cons_of_mem _ h.1, h.2⟩

theorem reconcileArrays_rewrites {arrays : List ArrayState}
    (hnd : ∀ a ∈ arrays, a.identities.Nodup) (n : Nat) :
    IdentityPool.Rewrites (arrays.map (·.identities)) n
      ((reconcileArrays binding formData arrays n).1.map (·.identities))
      (reconcileArrays binding formData arrays n).2 := by
  induction arrays generalizing n with
  | nil => exact .nil n
  | cons a arrays ih =>
    have ih := ih fun b hb => hnd b (List.mem_cons_of_mem _ hb)
    simp only [reconcileArrays]
    split
    · have hids := freshArrayItems_identities a.definition
        (arrayValues a.definition.binding formData).length n
      obtain ⟨hnd', hmem⟩ := range'_fresh a.identities n
        (arrayValues a.definition.binding formData).length
      refine .cons (Nat.le_add_right n _) ?_ ?_ (ih _)
      · simp only [ArrayState.identities, freshArrayItemsForData, hids]
        exact hnd'
      · simp only [ArrayState.identities, freshArrayItemsForData, hids]
        exact hmem
    · exact .cons (Nat.le_refl n) (hnd a List.mem_cons_self) (fun i hi => .inl hi) (ih n)

end Reconcile

theorem Inv.identities_nodup {definition : FormDefinition} {numbers : NumberInput} {form : Form}
    (h : form.Inv definition numbers) : ∀ a ∈ form.arrays, a.identities.Nodup := by
  intro a ha
  exact (List.nodup_flatten.mp h.pool.current_nodup).1 _ (List.mem_map_of_mem ha)

/-- A rewrite of the current identities is a step of the pool. -/
theorem pool_step {form form' : Form} (hp : form.pool.WellFormed)
    (hb : form'.baselineArrayIdentities = form.baselineArrayIdentities)
    (hr : IdentityPool.Rewrites (form.arrays.map (·.identities)) form.nextItemIdentity
      (form'.arrays.map (·.identities)) form'.nextItemIdentity) :
    IdentityPool.Step form.pool form'.pool :=
  .keep (by simp only [pool, hb]) hr.le (hr.nodup hp.current_lt hp.current_nodup) hr.mem

theorem reconcile_step {form : Form} {definition : FormDefinition} {numbers : NumberInput}
    (h : form.Inv definition numbers) (formData : Value) (binding : Pointer) :
    IdentityPool.Step form.pool
      ({ form with formData }.reconcileAuthoritativeArrays binding).pool :=
  pool_step h.pool rfl (reconcileArrays_rewrites binding formData h.identities_nodup _)

theorem boundControls_reconcile {form : Form} {binding : Pointer} {q : Pointer} {c : ControlState}
    (h : (q, c) ∈ (form.reconcileAuthoritativeArrays binding).boundControls) :
    c.hasEditState = false ∨ (q, c) ∈ form.boundControls := by
  rcases mem_boundControls.mp h with ⟨hc, rfl⟩ | ⟨a, ha, i, item, hi, hc, rfl⟩
  · exact .inr (mem_boundControls.mpr (.inl ⟨hc, rfl⟩))
  · rcases mem_reconcileArrays binding form.formData ha with ⟨ha, _⟩ | ⟨_, m, hitems⟩
    · exact .inr (mem_boundControls.mpr (.inr ⟨a, ha, i, item, hi, hc, rfl⟩))
    · rw [hitems] at hi
      obtain ⟨identity, rfl⟩ := mem_freshArrayItems (List.mem_of_getElem? hi)
      exact .inl (mem_new_controls hc)

theorem reconcile_shaped {definition : FormDefinition} {form : Form} (hs : form.Shaped definition)
    (binding : Pointer) : (form.reconcileAuthoritativeArrays binding).Shaped definition := by
  refine ⟨hs.controls, (reconcileArrays_definitions binding _ _ _).trans hs.arrays,
    fun a ha item hi => ?_⟩
  rcases mem_reconcileArrays binding form.formData ha with ⟨ha, _⟩ | ⟨_, m, hitems⟩
  · exact hs.items a ha item hi
  · rw [hitems] at hi
    obtain ⟨identity, rfl⟩ := mem_freshArrayItems hi
    exact new_controls identity a.definition

/-! ## Clearing -/

theorem clearControlBelow_definition (binding q : Pointer) (c : ControlState) :
    (clearControlBelow binding q c).definition = c.definition := by
  unfold clearControlBelow
  split <;> rfl

theorem mem_mapIdx {α β : Type} {f : Nat → α → β} {l : List α} {b : β} (h : b ∈ l.mapIdx f) :
    ∃ i a, l[i]? = some a ∧ b = f i a := by
  obtain ⟨i, hi⟩ := List.mem_iff_getElem?.mp h
  rw [List.getElem?_mapIdx, Option.map_eq_some_iff] at hi
  obtain ⟨a, ha, rfl⟩ := hi
  exact ⟨i, a, ha, rfl⟩

theorem boundControls_clear {form : Form} {binding : Pointer} {q : Pointer} {c' : ControlState}
    (h : (q, c') ∈ (form.clearEditStateBelow binding).boundControls) :
    ∃ c, (q, c) ∈ form.boundControls ∧ c' = clearControlBelow binding q c := by
  rcases mem_boundControls.mp h with ⟨hc', rfl⟩ | ⟨a', ha', i, item', hi', hc', rfl⟩
  · obtain ⟨c, hc, rfl⟩ := List.mem_map.mp hc'
    refine ⟨c, mem_boundControls.mpr (.inl ⟨hc, ?_⟩), ?_⟩
    · exact congrArg _ (clearControlBelow_definition _ _ c)
    · rw [clearControlBelow_definition]
  · obtain ⟨a, ha, rfl⟩ := List.mem_map.mp ha'
    rw [List.getElem?_mapIdx, Option.map_eq_some_iff] at hi'
    obtain ⟨item, hi, rfl⟩ := hi'
    obtain ⟨c, hc, rfl⟩ := List.mem_map.mp hc'
    refine ⟨c, mem_boundControls.mpr (.inr ⟨a, ha, i, item, hi, hc, ?_⟩), ?_⟩
    · rw [clearControlBelow_definition]
    · rw [clearControlBelow_definition]

theorem clear_arrays (form : Form) (binding : Pointer) :
    (form.clearEditStateBelow binding).arrays.map (fun a => (a.definition, a.identities)) =
      form.arrays.map fun a => (a.definition, a.identities) := by
  simp only [clearEditStateBelow, List.map_map]
  refine List.map_congr_left fun a _ => ?_
  simp only [Function.comp, ArrayState.identities, Prod.mk.injEq, true_and]
  refine List.ext_getElem? fun i => ?_
  simp only [List.getElem?_map, List.getElem?_mapIdx, Option.map_map]
  rfl

theorem clear_shaped {definition : FormDefinition} {form : Form} (hs : form.Shaped definition)
    (binding : Pointer) : (form.clearEditStateBelow binding).Shaped definition := by
  refine ⟨?_, ?_, fun a' ha' item' hi' => ?_⟩
  · rw [← hs.controls]
    simp only [clearEditStateBelow, List.map_map]
    exact List.map_congr_left fun c _ => clearControlBelow_definition _ _ c
  · have := congrArg (List.map Prod.fst) (clear_arrays form binding)
    rw [List.map_map, List.map_map] at this
    exact this.trans hs.arrays
  · obtain ⟨a, ha, rfl⟩ := List.mem_map.mp ha'
    obtain ⟨i, item, hi, rfl⟩ := mem_mapIdx hi'
    rw [← hs.items a ha item (List.mem_of_getElem? hi)]
    simp only [clearItemBelow, List.map_map]
    exact List.map_congr_left fun c _ => clearControlBelow_definition _ _ c

/-! ## A repaired write -/

section Repair

variable {definition : FormDefinition} {numbers : NumberInput} {form : Form} {p : Pointer}
  {new : Option Value} {formData : Value}

/-- No control stands strictly above the pointer. -/
def BelowNoControl (form : Form) (p : Pointer) : Prop :=
  ∀ q c, (q, c) ∈ form.boundControls → ∀ t r, p ≠ q ++ t :: r

theorem BelowNoControl.position (hp : form.BelowNoControl p) {q : Pointer} {c : ControlState}
    (hmem : (q, c) ∈ form.boundControls) : q.startsWith p = true ∨ p.Apart q := by
  rcases Pointer.trichotomy p q with ⟨r, rfl⟩ | ⟨t, r, hq⟩ | hpq
  · exact .inl (by simp)
  · exact absurd hq (hp q c hmem t r)
  · exact .inr hpq

theorem length_reconcile (h : form.Inv definition numbers)
    (hw : Write p new form.formData formData) {a : ArrayState}
    (ha : a ∈ ({ form with formData }.reconcileAuthoritativeArrays p).arrays) :
    a.items.length = (arrayValues a.definition.binding formData).length := by
  rcases mem_reconcileArrays p formData ha with ⟨ha, hs⟩ | ⟨_, m, hitems⟩
  · rw [length_arrayValues_write hw hs]
    exact (coherent_iff.mp h.coherent).2 a ha
  · rw [hitems, freshArrayItemsForData, freshArrayItems_length]

/-- The repaired form without the clearing, when the buffers may stay. -/
theorem Inv.reconciled (h : form.Inv definition numbers) (hw : Write p new form.formData formData)
    (hwf : formData.WF) (hobj : formData.isObject = true)
    (hkeep : ∀ q c, (q, c) ∈ form.boundControls →
      ControlCoherent numbers (Pointer.resolve q formData) c) :
    ({ form with formData }.reconcileAuthoritativeArrays p).Inv definition numbers := by
  have hs : { form with formData }.Shaped definition :=
    ⟨h.shaped.controls, h.shaped.arrays, h.shaped.items⟩
  refine ⟨reconcile_shaped hs p, hwf, hobj, h.baseline_wf, h.baseline_isObject,
    coherent_iff.mpr ⟨?_, fun a ha => length_reconcile h hw ha⟩, h.baselineItems,
    (reconcile_step h formData p).wellFormed h.pool, h.batches⟩
  rintro ⟨q, c⟩ hmem
  rcases boundControls_reconcile hmem with hc | hmem
  · exact coherent_of_clear hc
  · exact hkeep q c hmem

theorem clear_pool (form : Form) (p : Pointer) : (form.clearEditStateBelow p).pool = form.pool := by
  have := congrArg (List.map Prod.snd) (clear_arrays form p)
  rw [List.map_map, List.map_map] at this
  exact congrArg (fun l => IdentityPool.mk (List.flatten l) _ _) this

/-- The repaired form. -/
theorem Inv.writeStructure (h : form.Inv definition numbers)
    (hw : Write p new form.formData formData) (hwf : formData.WF) (hobj : formData.isObject = true)
    (hp : form.BelowNoControl p) :
    (({ form with formData }.reconcileAuthoritativeArrays p).clearEditStateBelow p).Inv definition
      numbers := by
  have hs : { form with formData }.Shaped definition :=
    ⟨h.shaped.controls, h.shaped.arrays, h.shaped.items⟩
  refine ⟨clear_shaped (reconcile_shaped hs p) p, hwf, hobj, h.baseline_wf, h.baseline_isObject,
    coherent_iff.mpr ⟨?_, fun a' ha' => ?_⟩, h.baselineItems, ?_, h.batches⟩
  · rintro ⟨q, c'⟩ hmem
    obtain ⟨c, hmem', rfl⟩ := boundControls_clear hmem
    unfold clearControlBelow
    split
    · exact ControlCoherent.clearEditState c
    · rename_i hq
      rcases boundControls_reconcile hmem' with hc | hold
      · exact coherent_of_clear hc
      · rcases hp.position hold with hbelow | hpq
        · exact absurd hbelow hq
        · change ControlCoherent numbers (Pointer.resolve q formData) c
          rw [hw.apart q hpq]
          exact (coherent_iff.mp h.coherent).1 _ hold
  · obtain ⟨a, ha, rfl⟩ := List.mem_map.mp ha'
    rw [List.length_mapIdx]
    exact length_reconcile h hw ha
  · rw [clear_pool]
    exact (reconcile_step h formData p).wellFormed h.pool

end Repair

/-! ## The operations -/

section Operations

variable {definition : FormDefinition} {numbers : NumberInput} {form form' : Form} {p : Pointer}
  {value : Value} {r : Except EditError Unit}

theorem materializeStructure_cases (h : form.materializeStructure p value = (form', r)) :
    (form' = form ∧ ∃ e, r = .error e) ∨
    (r = .ok () ∧ p.resolve form.formData = none ∧ (value.isObject || value.isArray) = true ∧
      ∃ formData, setBoundValue p value form.formData = some formData ∧
      form' = ({ form with formData }.reconcileAuthoritativeArrays p).dataChanged) := by
  simp only [materializeStructure] at h
  split at h
  · cases h; exact .inl ⟨rfl, _, rfl⟩
  · rename_i hg
    split at h
    · cases h; exact .inl ⟨rfl, _, rfl⟩
    · rename_i formData hset
      cases h
      simp only [Bool.or_eq_true, Bool.not_eq_true', not_or, Bool.not_eq_false] at hg
      exact .inr ⟨rfl, by simpa using hg.1, by simpa using hg.2, formData, hset, rfl⟩

theorem replaceStructure_cases (h : form.replaceStructure p value = (form', r)) :
    (form' = form ∧ ∃ e, r = .error e) ∨
    (r = .ok () ∧ ∃ current formData, p.resolve form.formData = some current ∧
      replaceable (form.isMultipleChoiceAt p) value current = true ∧
      setBoundValue p value form.formData = some formData ∧
      form' = (({ form with formData }.reconcileAuthoritativeArrays p).clearEditStateBelow
        p).dataChanged) := by
  simp only [replaceStructure] at h
  split at h
  · cases h; exact .inl ⟨rfl, _, rfl⟩
  · rename_i hg
    split at h
    · cases h; exact .inl ⟨rfl, _, rfl⟩
    · rename_i formData hset
      cases h
      simp only [Bool.or_eq_true, Bool.not_eq_true', not_or, Bool.not_eq_false] at hg
      obtain ⟨current, hc, hr⟩ := (Option.any_eq_true _ _).mp hg.2
      exact .inr ⟨rfl, current, formData, hc, hr, hset, rfl⟩

theorem removeValue_cases (h : form.removeValue p = (form', r)) :
    (form' = form ∧ ∃ e, r = .error e) ∨
    (r = .ok () ∧ ∃ formData, takeBoundValue p form.formData = some formData ∧
      form' = (({ form with formData }.reconcileAuthoritativeArrays p).clearEditStateBelow
        p).dataChanged) := by
  simp only [removeValue] at h
  split at h
  · cases h; exact .inl ⟨rfl, _, rfl⟩
  · rename_i formData htake
    cases h
    exact .inr ⟨rfl, formData, htake, rfl⟩

theorem Inv.dataChanged {form : Form} (h : form.Inv definition numbers) :
    form.dataChanged.Inv definition numbers :=
  h.of_eq rfl rfl rfl rfl rfl rfl rfl

/-- A structural write keeps the root an object, being below it or writing an object. -/
theorem isObject_write {new : Option Value} {v w : Value} (hw : Write p new v w)
    (hv : v.isObject = true) (hp : p ≠ []) : w.isObject = true := (hw.isObject hp).trans hv

theorem materializeStructure_inv (hinv : form.Inv definition numbers) (hv : value.WF)
    (hp : form.BelowNoControl p) (h : form.materializeStructure p value = (form', r)) :
    form'.Inv definition numbers := by
  rcases materializeStructure_cases h with ⟨rfl, _⟩ | ⟨_, hnone, _, formData, hset, rfl⟩
  · exact hinv
  · have hw := setBoundValue_write hset
    have hroot : p ≠ [] := by rintro rfl; cases hnone
    refine (Inv.reconciled hinv hw (setBoundValue_wf hinv.formData_wf hv hset)
      (isObject_write hw hinv.formData_isObject hroot) fun q c hmem => ?_).dataChanged
    have hold := (coherent_iff.mp hinv.coherent).1 _ hmem
    rcases hp.position hmem with hq | hpq
    · obtain ⟨s, rfl⟩ := Pointer.startsWith_iff.mp hq
      rw [Pointer.resolve_append, hnone, Option.bind_none] at hold
      exact hold.of_absent
    · rw [hw.apart q hpq]
      exact hold

theorem replaceStructure_inv (hinv : form.Inv definition numbers) (hv : value.WF) (hroot : p ≠ [])
    (hp : form.BelowNoControl p) (h : form.replaceStructure p value = (form', r)) :
    form'.Inv definition numbers := by
  rcases replaceStructure_cases h with ⟨rfl, _⟩ | ⟨_, current, formData, _, _, hset, rfl⟩
  · exact hinv
  · have hw := setBoundValue_write hset
    exact (Inv.writeStructure hinv hw (setBoundValue_wf hinv.formData_wf hv hset)
      (isObject_write hw hinv.formData_isObject hroot) hp).dataChanged

theorem removeValue_inv (hinv : form.Inv definition numbers) (hp : form.BelowNoControl p)
    (h : form.removeValue p = (form', r)) : form'.Inv definition numbers := by
  rcases removeValue_cases h with ⟨rfl, _⟩ | ⟨_, formData, htake, rfl⟩
  · exact hinv
  · have hw := takeBoundValue_write hinv.formData_wf htake
    exact (Inv.writeStructure hinv hw (takeBoundValue_wf hinv.formData_wf htake)
      (isObject_write hw hinv.formData_isObject (takeBoundValue_ne_nil htake)) hp).dataChanged

theorem materializeStructure_data (hinv : form.Inv definition numbers) (hv : value.WF)
    (h : form.materializeStructure p value = (form', r)) : form.DataExact form' := by
  rcases materializeStructure_cases h with ⟨rfl, _⟩ | ⟨_, hnone, _, formData, hset, rfl⟩
  · exact .of_eq rfl rfl
  · refine .of_ne ?_ rfl
    refine (setBoundValue_write hset).not_equal hinv.formData_wf
      (setBoundValue_wf hinv.formData_wf hv hset) fun hs => ?_
    rw [hnone] at hs
    cases hs

theorem removeValue_data (hinv : form.Inv definition numbers)
    (h : form.removeValue p = (form', r)) : form.DataExact form' := by
  rcases removeValue_cases h with ⟨rfl, _⟩ | ⟨_, formData, htake, rfl⟩
  · exact .of_eq rfl rfl
  · refine .of_ne ?_ rfl
    refine (takeBoundValue_write hinv.formData_wf htake).not_equal hinv.formData_wf
      (takeBoundValue_wf hinv.formData_wf htake) fun hs => ?_
    obtain ⟨old, hold⟩ := Option.isSome_iff_exists.mp (takeBoundValue_isSome htake)
    rw [hold] at hs
    cases hs

/-- A replacement counts as a data change in any case; it is one unless an equal array replaces the
array of a multiple choice. -/
theorem replaceStructure_data (hinv : form.Inv definition numbers) (hv : value.WF)
    (h : form.replaceStructure p value = (form', r)) :
    form.DataExact form' ↔ (r = .ok () →
      (p.resolve form.formData).any (jsonValuesEqual · value) = false) := by
  rcases replaceStructure_cases h with ⟨rfl, e, rfl⟩ | ⟨rfl, current, formData, hc, hr, hset, rfl⟩
  · exact ⟨fun _ => nofun, fun _ => .of_eq rfl rfl⟩
  · have hwf := setBoundValue_wf hinv.formData_wf hv hset
    constructor
    · intro hexact _
      rw [hc, Option.any_some]
      refine Bool.eq_false_iff.mpr fun heq => ?_
      have hsame : jsonValuesEqual form.formData formData = true :=
        jsonValuesEqual_setBoundValue hinv.formData_wf hc heq hset
      have hrev : form.dataRevision + 1 = form.dataRevision +
          if jsonValuesEqual form.formData formData then 0 else 1 := hexact
      simp [hsame] at hrev
    · intro hne
      refine .of_ne ((setBoundValue_write hset).not_equal hinv.formData_wf hwf ?_) rfl
      exact not_sameValue_of_any (hne rfl)

theorem materializeStructure_state (h : form.materializeStructure p value = (form', r)) :
    form.StateExact form' := by
  rcases materializeStructure_cases h with ⟨rfl, _⟩ | ⟨_, _, _, formData, _, rfl⟩
  · exact .refl form'
  · exact .inr rfl

theorem replaceStructure_state (h : form.replaceStructure p value = (form', r)) :
    form.StateExact form' := by
  rcases replaceStructure_cases h with ⟨rfl, _⟩ | ⟨_, _, formData, _, _, _, rfl⟩
  · exact .refl form'
  · exact .inr rfl

theorem removeValue_state (h : form.removeValue p = (form', r)) : form.StateExact form' := by
  rcases removeValue_cases h with ⟨rfl, _⟩ | ⟨_, formData, _, rfl⟩
  · exact .refl form'
  · exact .inr rfl

theorem materializeStructure_step (hinv : form.Inv definition numbers) (hv : value.WF)
    (hp : form.BelowNoControl p) (h : form.materializeStructure p value = (form', r)) :
    form.Step definition numbers form' := by
  refine ⟨materializeStructure_inv hinv hv hp h, ?_, materializeStructure_state h⟩
  rcases materializeStructure_cases h with ⟨rfl, _⟩ | ⟨_, _, _, formData, _, rfl⟩
  · exact .refl hinv.pool
  · exact reconcile_step hinv formData p

theorem repaired_step (hinv : form.Inv definition numbers) (formData : Value) (p : Pointer) :
    IdentityPool.Step form.pool
      (({ form with formData }.reconcileAuthoritativeArrays p).clearEditStateBelow p).pool := by
  rw [clear_pool]
  exact reconcile_step hinv formData p

theorem replaceStructure_step (hinv : form.Inv definition numbers) (hv : value.WF) (hroot : p ≠ [])
    (hp : form.BelowNoControl p) (h : form.replaceStructure p value = (form', r)) :
    form.Step definition numbers form' := by
  refine ⟨replaceStructure_inv hinv hv hroot hp h, ?_, replaceStructure_state h⟩
  rcases replaceStructure_cases h with ⟨rfl, _⟩ | ⟨_, _, formData, _, _, _, rfl⟩
  · exact .refl hinv.pool
  · exact repaired_step hinv formData p

theorem removeValue_step (hinv : form.Inv definition numbers) (hp : form.BelowNoControl p)
    (h : form.removeValue p = (form', r)) : form.Step definition numbers form' := by
  refine ⟨removeValue_inv hinv hp h, ?_, removeValue_state h⟩
  rcases removeValue_cases h with ⟨rfl, _⟩ | ⟨_, formData, _, rfl⟩
  · exact .refl hinv.pool
  · exact repaired_step hinv formData p

end Operations

end Form

end Schemaform.Engine
