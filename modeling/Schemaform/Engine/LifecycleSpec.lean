import Schemaform.Engine.ArraySpec

/-!
# Engine.LifecycleSpec

Creation, reset, reinitialization and submission of a form.

* `freshArrays_*`: items for every array, off one counter.
* `mapControls_*`: one edit of every control state.
* `createForm_inv`, `reset_*`, `reinitialize_*`, `prepareSubmission_*`.
-/

namespace Schemaform.Engine

open ListEdit

/-! ## Fresh arrays -/

section Fresh

variable (formData : Value)

theorem freshArrays_definitions (definitions : List ArrayDefinition) (n : Nat) :
    (freshArrays formData definitions n).1.map (·.definition) = definitions := by
  induction definitions generalizing n with
  | nil => rfl
  | cons d ds ih => simp only [freshArrays, List.map_cons, ih]

theorem mem_freshArrays {definitions : List ArrayDefinition} {n : Nat} {a : ArrayState}
    (h : a ∈ (freshArrays formData definitions n).1) :
    a.touched = false ∧ ∃ m, a.items = (freshArrayItemsForData a.definition formData m).1 := by
  induction definitions generalizing n with
  | nil => cases h
  | cons d ds ih =>
    simp only [freshArrays] at h
    rcases List.mem_cons.mp h with rfl | h
    · exact ⟨rfl, n, rfl⟩
    · exact ih h

theorem freshArrays_cons_identities (d : ArrayDefinition) (ds : List ArrayDefinition) (n : Nat) :
    (freshArrays formData (d :: ds) n).1.map (·.identities) =
      List.range' n (arrayValues d.binding formData).length ::
        (freshArrays formData ds (n + (arrayValues d.binding formData).length)).1.map
          (·.identities) :=
  congrArg (· :: _) (freshArrayItems_identities d _ n)

theorem freshArrays_rewrites (definitions : List ArrayDefinition) (n : Nat) :
    IdentityPool.Rewrites (definitions.map fun _ => []) n
      ((freshArrays formData definitions n).1.map (·.identities))
      (freshArrays formData definitions n).2 := by
  induction definitions generalizing n with
  | nil => exact .nil n
  | cons d ds ih =>
    obtain ⟨hnd, hmem⟩ := range'_fresh [] n (arrayValues d.binding formData).length
    rw [freshArrays_cons_identities]
    exact .cons (Nat.le_add_right n _) hnd hmem (ih _)

/-- Identities of fresh arrays are distinct and off the counter. -/
theorem freshArrays_identities (definitions : List ArrayDefinition) (n : Nat) :
    n ≤ (freshArrays formData definitions n).2 ∧
    ((freshArrays formData definitions n).1.map (·.identities)).flatten.Nodup ∧
    ∀ i ∈ ((freshArrays formData definitions n).1.map (·.identities)).flatten,
      n ≤ i ∧ i < (freshArrays formData definitions n).2 := by
  have h := freshArrays_rewrites formData definitions n
  refine ⟨h.le, h.nodup (by simp) (by simp), fun i hi => ?_⟩
  rcases h.mem i hi with hi | hi
  · simp at hi
  · exact hi

theorem freshArrays_shaped {definition : FormDefinition} {form : Form} {n : Nat}
    (hc : form.controls.map (·.definition) = definition.controls)
    (ha : form.arrays = (freshArrays formData definition.arrays n).1) : form.Shaped definition := by
  refine ⟨hc, ?_, fun a h item hi => ?_⟩
  · rw [ha]
    exact freshArrays_definitions formData definition.arrays n
  · rw [ha] at h
    obtain ⟨_, m, hitems⟩ := mem_freshArrays formData h
    rw [hitems] at hi
    obtain ⟨identity, rfl⟩ := mem_freshArrayItems hi
    exact new_controls identity a.definition

theorem freshArrays_baselineItems (definitions : List ArrayDefinition) (n : Nat) :
    List.Forall₂ (fun (a : ArrayDefinition) (ids : List Nat) =>
      ids.length = (arrayValues a.binding formData).length) definitions
      ((freshArrays formData definitions n).1.map (·.identities)) := by
  induction definitions generalizing n with
  | nil => exact .nil
  | cons d ds ih =>
    rw [freshArrays_cons_identities]
    exact .cons List.length_range' (ih _)

end Fresh

namespace Form

/-! ## All controls at once -/

theorem mem_allControls {form : Form} {c : ControlState} :
    c ∈ form.allControls ↔ ∃ q, (q, c) ∈ form.boundControls := by
  simp only [allControls, List.mem_append, List.mem_flatMap, mem_boundControls]
  constructor
  · rintro (hc | ⟨item, ⟨a, ha, hi⟩, hc⟩)
    · exact ⟨_, .inl ⟨hc, rfl⟩⟩
    · obtain ⟨i, hi⟩ := List.mem_iff_getElem?.mp hi
      exact ⟨_, .inr ⟨a, ha, i, item, hi, hc, rfl⟩⟩
  · rintro ⟨q, ⟨hc, _⟩ | ⟨a, ha, i, item, hi, hc, _⟩⟩
    · exact .inl hc
    · exact .inr ⟨item, ⟨a, ha, List.mem_of_getElem? hi⟩, hc⟩

/-- Without edit state only the lengths of the arrays matter. -/
theorem coherent_of_all_clear {numbers : NumberInput} {form : Form}
    (hc : ∀ c ∈ form.allControls, c.hasEditState = false)
    (hlen : ∀ a ∈ form.arrays,
      a.items.length = (arrayValues a.definition.binding form.formData).length) :
    form.Coherent numbers :=
  coherent_iff.mpr ⟨fun e he => coherent_of_clear (hc e.2 (mem_allControls.mpr ⟨e.1, he⟩)), hlen⟩

section MapControls

variable {definition : FormDefinition} {form : Form} {edit : ControlState → ControlState}

theorem mapControls_shaped (hs : form.Shaped definition)
    (he : ∀ c, (edit c).definition = c.definition) : (form.mapControls edit).Shaped definition := by
  refine ⟨?_, ?_, fun a' ha' item' hi' => ?_⟩
  · rw [← hs.controls]
    simp only [mapControls, List.map_map]
    exact List.map_congr_left fun c _ => he c
  · rw [← hs.arrays]
    simp only [mapControls, List.map_map]
    rfl
  · obtain ⟨a, ha, rfl⟩ := List.mem_map.mp ha'
    obtain ⟨item, hi, rfl⟩ := List.mem_map.mp hi'
    rw [← hs.items a ha item hi]
    simp only [ArrayItemState.map, List.map_map]
    exact List.map_congr_left fun c _ => he c

theorem mapControls_identities (form : Form) (edit : ControlState → ControlState) :
    (form.mapControls edit).arrays.map (·.identities) = form.arrays.map (·.identities) := by
  simp only [mapControls, List.map_map]
  refine List.map_congr_left fun a _ => ?_
  simp only [Function.comp, ArrayState.identities, List.map_map]
  rfl

theorem mapControls_pool (form : Form) (edit : ControlState → ControlState) :
    (form.mapControls edit).pool = form.pool := by
  simp only [pool, mapControls_identities]
  rfl

theorem boundControls_mapControls (he : ∀ c, (edit c).definition = c.definition) {q : Pointer}
    {c' : ControlState} (h : (q, c') ∈ (form.mapControls edit).boundControls) :
    ∃ c, (q, c) ∈ form.boundControls ∧ c' = edit c := by
  rcases mem_boundControls.mp h with ⟨hc', rfl⟩ | ⟨a', ha', i, item', hi', hc', rfl⟩
  · obtain ⟨c, hc, rfl⟩ := List.mem_map.mp hc'
    exact ⟨c, mem_boundControls.mpr (.inl ⟨hc, by rw [he]⟩), rfl⟩
  · obtain ⟨a, ha, rfl⟩ := List.mem_map.mp ha'
    rw [List.getElem?_map, Option.map_eq_some_iff] at hi'
    obtain ⟨item, hi, rfl⟩ := hi'
    obtain ⟨c, hc, rfl⟩ := List.mem_map.mp hc'
    exact ⟨c, mem_boundControls.mpr (.inr ⟨a, ha, i, item, hi, hc, by rw [he]⟩), rfl⟩

theorem mem_arrays_mapControls {a' : ArrayState} (h : a' ∈ (form.mapControls edit).arrays) :
    ∃ a ∈ form.arrays, a'.definition = a.definition ∧ a'.touched = a.touched ∧
      a'.items = a.items.map (ArrayItemState.map edit) := by
  obtain ⟨a, ha, rfl⟩ := List.mem_map.mp h
  exact ⟨a, ha, rfl, rfl, rfl⟩

theorem Inv.mapControls {numbers : NumberInput} (h : form.Inv definition numbers)
    (edit : ControlState → ControlState)
    (he : ∀ c, (edit c).definition = c.definition)
    (hc : ∀ current c, ControlCoherent numbers current c →
      ControlCoherent numbers current (edit c)) :
    (form.mapControls edit).Inv definition numbers := by
  refine ⟨mapControls_shaped h.shaped he, h.formData_wf, h.formData_isObject, h.baseline_wf,
    h.baseline_isObject, coherent_iff.mpr ⟨?_, fun a' ha' => ?_⟩, h.baselineItems, ?_, h.batches⟩
  · rintro ⟨q, c'⟩ hmem
    obtain ⟨c, hmem', rfl⟩ := boundControls_mapControls he hmem
    exact hc _ c ((coherent_iff.mp h.coherent).1 _ hmem')
  · obtain ⟨a, ha, hdef, _, hitems⟩ := mem_arrays_mapControls ha'
    rw [hdef, hitems, List.length_map]
    exact (coherent_iff.mp h.coherent).2 a ha
  · rw [mapControls_pool]
    exact h.pool

/-- An edit that leaves every control as it is leaves the form as it is. -/
theorem mapControls_eq_self (h : ∀ c ∈ form.allControls, edit c = c) :
    form.mapControls edit = form := by
  have hstatic : form.controls.map edit = form.controls :=
    (List.map_congr_left fun c hc => h c (List.mem_append_left _ hc)).trans (List.map_id _)
  have harrays : form.arrays.map (fun array =>
      { array with items := array.items.map (ArrayItemState.map edit) }) = form.arrays := by
    refine (List.map_congr_left fun a ha => ?_).trans (List.map_id _)
    have hitems : a.items.map (ArrayItemState.map edit) = a.items := by
      refine (List.map_congr_left fun item hi => ?_).trans (List.map_id _)
      have hcs : item.controls.map edit = item.controls := by
        refine (List.map_congr_left fun c hc => h c (List.mem_append_right _ ?_)).trans
          (List.map_id _)
        exact List.mem_flatMap.mpr ⟨item, List.mem_flatMap.mpr ⟨a, ha, hi⟩, hc⟩
      simp only [ArrayItemState.map, hcs, id]
    simp only [hitems, id]
  simp only [Form.mapControls, hstatic, harrays]

end MapControls

/-! ## Creation -/

theorem createForm_inv {definition : FormDefinition} {numbers : NumberInput} {formData : Value}
    {form : Form} (hwf : formData.WF) (h : definition.createForm formData = .ok form) :
    form.Inv definition numbers := by
  simp only [FormDefinition.createForm] at h
  split at h
  · cases h
  · rename_i hobj
    have hobj : formData.isObject = true := by simpa using hobj
    cases h
    have hmap : (definition.controls.map ControlState.new).map (·.definition) =
        definition.controls := by
      rw [List.map_map]
      exact List.map_id _
    obtain ⟨hle, hnd, hmem⟩ := freshArrays_identities formData definition.arrays 1
    refine ⟨freshArrays_shaped formData hmap rfl, hwf, hobj, hwf, hobj,
      coherent_of_all_clear (fun c hc => ?_) (fun a ha => ?_),
      freshArrays_baselineItems formData definition.arrays 1, ?_, rfl⟩
    · rcases List.mem_append.mp hc with hc | hc
      · obtain ⟨d, _, rfl⟩ := List.mem_map.mp hc
        rfl
      · obtain ⟨item, hitem, hc⟩ := List.mem_flatMap.mp hc
        obtain ⟨a, ha, hi⟩ := List.mem_flatMap.mp hitem
        obtain ⟨_, m, hitems⟩ := mem_freshArrays formData ha
        rw [hitems] at hi
        obtain ⟨identity, rfl⟩ := mem_freshArrayItems hi
        exact mem_new_controls hc
    · obtain ⟨_, m, hitems⟩ := mem_freshArrays formData ha
      rw [hitems, freshArrayItemsForData, freshArrayItems_length]
    · exact ⟨fun i hi => (hmem i hi).2, fun i hi => (hmem i hi).2, hnd, hnd⟩

section Lifecycle

variable {definition : FormDefinition} {numbers : NumberInput} {form form' : Form}

/-! ## Reset -/

theorem restoreArrays_definitions (arrays : List ArrayState) (baseline : List (List Nat)) :
    (restoreArrays arrays baseline).map (·.definition) = arrays.map (·.definition) := by
  induction arrays generalizing baseline with
  | nil => cases baseline <;> rfl
  | cons a arrays ih =>
    cases baseline with
    | nil => rfl
    | cons ids baseline => simp only [restoreArrays, List.map_cons, ih]

theorem arrayItemsWithIdentities_identities (definition : ArrayDefinition)
    (identities : List Nat) :
    (arrayItemsWithIdentities definition identities).map (·.identity) = identities := by
  simp only [arrayItemsWithIdentities, List.map_map]
  exact List.map_id _

theorem restoreArrays_identities {arrays : List ArrayState} {baseline : List (List Nat)}
    (h : arrays.length = baseline.length) :
    (restoreArrays arrays baseline).map (·.identities) = baseline := by
  induction arrays generalizing baseline with
  | nil =>
    cases baseline with
    | nil => rfl
    | cons _ _ => cases h
  | cons a arrays ih =>
    cases baseline with
    | nil => cases h
    | cons ids baseline =>
      exact congrArg₂ List.cons (arrayItemsWithIdentities_identities a.definition ids)
        (ih (Nat.succ.inj h))

theorem mem_restoreArrays {arrays : List ArrayState} {baseline : List (List Nat)} {a' : ArrayState}
    (h : a' ∈ restoreArrays arrays baseline) :
    a' ∈ arrays ∨ ∃ identities, a'.items = arrayItemsWithIdentities a'.definition identities := by
  induction arrays generalizing baseline with
  | nil => cases baseline <;> cases h
  | cons a arrays ih =>
    cases baseline with
    | nil => exact .inl h
    | cons ids baseline =>
      rcases List.mem_cons.mp h with rfl | h
      · exact .inr ⟨ids, rfl⟩
      · exact (ih h).imp_left (List.mem_cons_of_mem _)

theorem Inv.length_baseline (hinv : form.Inv definition numbers) :
    form.arrays.length = form.baselineArrayIdentities.length := by
  rw [← hinv.baselineItems.length_eq, ← hinv.shaped.arrays, List.length_map]

/-- An unchanged topology is the baseline's. -/
theorem identities_of_not_topologyChanged (hinv : form.Inv definition numbers)
    (h : form.topologyChanged = false) :
    form.arrays.map (·.identities) = form.baselineArrayIdentities := by
  have hlen := hinv.length_baseline
  have hzip : ∀ e ∈ form.arrays.zip form.baselineArrayIdentities, e.1.identities = e.2 := by
    intro e he
    have := List.any_eq_false.mp h e he
    simpa using this
  refine List.ext_getElem (by simpa using hlen) fun i hi hi' => ?_
  rw [List.getElem_map]
  have hlt : i < form.arrays.length := by simpa using hi
  refine hzip (form.arrays[i], form.baselineArrayIdentities[i]) ?_
  exact List.mem_iff_getElem.mpr ⟨i, by simpa using ⟨hlt, hi'⟩, by simp⟩

/-- The arrays a reset leaves: the baseline's identities, and no state on any item. -/
theorem reset_identities (hinv : form.Inv definition numbers) :
    form.reset.arrays.map (·.identities) = form.baselineArrayIdentities := by
  have hids : ((form.mapControls ControlState.clearLifecycleState).untouchArrays.arrays.map
      (·.identities)) = form.arrays.map (·.identities) := by
    rw [untouchArrays, List.map_map]
    exact mapControls_identities form _
  simp only [reset, advance_arrays]
  split
  · refine restoreArrays_identities ?_
    have := congrArg List.length hids
    rw [List.length_map, List.length_map] at this
    exact this.trans hinv.length_baseline
  · rename_i h
    exact hids.trans (identities_of_not_topologyChanged hinv (by simpa using h))

theorem length_arrayValues_congr {p : Pointer} {v w : Value} (hv : v.WF) (hw : w.WF)
    (h : jsonValuesEqual v w = true) : (arrayValues p v).length = (arrayValues p w).length := by
  have hs := resolve_congr hv hw h p
  unfold arrayValues
  generalize Pointer.resolve p v = c at hs
  generalize Pointer.resolve p w = d at hs
  cases hs with
  | none => rfl
  | @some c d hcd =>
    cases c with
    | array items =>
      obtain ⟨items', rfl⟩ := jsonValuesEqual_array_left hcd
      exact (jsonValuesEqual_array.mp hcd).length_eq
    | _ => cases d <;> simp_all [Value.asArray, jsonValuesEqual_iff]

theorem lengths_of_identities {arrays : List ArrayState} {defs : List ArrayDefinition}
    {ids : List (List Nat)} {formData : Value} (hd : arrays.map (·.definition) = defs)
    (hi : arrays.map (·.identities) = ids)
    (h : List.Forall₂ (fun (a : ArrayDefinition) (ids : List Nat) =>
      ids.length = (arrayValues a.binding formData).length) defs ids) :
    ∀ a ∈ arrays, a.items.length = (arrayValues a.definition.binding formData).length := by
  subst hd hi
  rw [List.forall₂_map_left_iff, List.forall₂_map_right_iff, List.forall₂_same] at h
  intro a ha
  have := h a ha
  rwa [ArrayState.identities, List.length_map] at this

theorem mem_reset_arrays {a' : ArrayState} (h : a' ∈ form.reset.arrays) :
    (∃ a ∈ form.arrays, a'.definition = a.definition ∧
      a'.items = a.items.map (ArrayItemState.map ControlState.clearLifecycleState)) ∨
    ∃ identities, a'.items = arrayItemsWithIdentities a'.definition identities := by
  have hbase (h : a' ∈ (form.mapControls ControlState.clearLifecycleState).untouchArrays.arrays) :
      ∃ a ∈ form.arrays, a'.definition = a.definition ∧
        a'.items = a.items.map (ArrayItemState.map ControlState.clearLifecycleState) := by
    obtain ⟨a'', ha'', rfl⟩ := List.mem_map.mp h
    obtain ⟨a, ha, hd, _, hi⟩ := mem_arrays_mapControls ha''
    exact ⟨a, ha, hd, hi⟩
  simp only [reset, advance_arrays] at h
  split at h
  · exact (mem_restoreArrays h).imp_left hbase
  · exact .inl (hbase h)

theorem reset_controls (form : Form) :
    form.reset.controls = form.controls.map ControlState.clearLifecycleState := rfl

theorem reset_definitions (form : Form) :
    form.reset.arrays.map (·.definition) = form.arrays.map (·.definition) := by
  have hbase : ((form.mapControls ControlState.clearLifecycleState).untouchArrays.arrays.map
      (·.definition)) = form.arrays.map (·.definition) := by
    simp only [untouchArrays, mapControls, List.map_map]
    rfl
  simp only [reset, advance_arrays]
  split
  · rw [restoreArrays_definitions, hbase]
  · exact hbase

theorem new_of_withIdentities {definition : ArrayDefinition} {identities : List Nat}
    {item : ArrayItemState} (h : item ∈ arrayItemsWithIdentities definition identities) :
    ∃ identity, item = ArrayItemState.new identity definition := by
  obtain ⟨identity, _, rfl⟩ := List.mem_map.mp h
  exact ⟨identity, rfl⟩

theorem reset_shaped (hs : form.Shaped definition) : form.reset.Shaped definition := by
  refine ⟨?_, (reset_definitions form).trans hs.arrays, fun a' ha' item' hi' => ?_⟩
  · rw [reset_controls, List.map_map, ← hs.controls]
    rfl
  · rcases mem_reset_arrays ha' with ⟨a, ha, hd, hitems⟩ | ⟨ids, hitems⟩
    · rw [hitems] at hi'
      obtain ⟨item, hi, rfl⟩ := List.mem_map.mp hi'
      rw [hd, ← hs.items a ha item hi]
      simp only [ArrayItemState.map, List.map_map]
      rfl
    · rw [hitems] at hi'
      obtain ⟨identity, rfl⟩ := new_of_withIdentities hi'
      exact new_controls identity a'.definition

theorem reset_clear (form : Form) : ∀ c ∈ form.reset.allControls, c.hasEditState = false := by
  intro c hc
  rcases List.mem_append.mp hc with hc | hc
  · obtain ⟨c, _, rfl⟩ := List.mem_map.mp hc
    rfl
  · obtain ⟨item', hitem, hc⟩ := List.mem_flatMap.mp hc
    obtain ⟨a', ha', hi'⟩ := List.mem_flatMap.mp hitem
    rcases mem_reset_arrays ha' with ⟨a, ha, hd, hitems⟩ | ⟨ids, hitems⟩
    · rw [hitems] at hi'
      obtain ⟨item, _, rfl⟩ := List.mem_map.mp hi'
      obtain ⟨c, _, rfl⟩ := List.mem_map.mp hc
      rfl
    · rw [hitems] at hi'
      obtain ⟨identity, rfl⟩ := new_of_withIdentities hi'
      exact mem_new_controls hc

theorem reset_formData (form : Form) : form.reset.formData =
    if jsonValuesEqual form.formData form.baseline then form.formData else form.baseline := by
  cases h : jsonValuesEqual form.formData form.baseline <;>
    simp [reset, advance, mapControls, untouchArrays, h]

theorem reset_baseline (form : Form) : form.reset.baseline = form.baseline := by
  cases h : jsonValuesEqual form.formData form.baseline <;>
    simp [reset, advance, mapControls, untouchArrays, h]

theorem reset_lengths (hinv : form.Inv definition numbers) : ∀ a ∈ form.reset.arrays,
    a.items.length = (arrayValues a.definition.binding form.reset.formData).length := by
  have h := lengths_of_identities ((reset_definitions form).trans hinv.shaped.arrays)
    (reset_identities hinv) hinv.baselineItems
  intro a ha
  rw [h a ha, reset_formData]
  split
  · rename_i heq
    exact (length_arrayValues_congr hinv.formData_wf hinv.baseline_wf heq).symm
  · rfl

theorem reset_pool (hinv : form.Inv definition numbers) :
    IdentityPool.Step form.pool form.reset.pool :=
  .restore rfl rfl (congrArg List.flatten (reset_identities hinv))

theorem reset_inv (hinv : form.Inv definition numbers) : form.reset.Inv definition numbers := by
  have hpool := (reset_pool hinv).wellFormed hinv.pool
  refine ⟨reset_shaped hinv.shaped, ?_, ?_, hinv.baseline_wf, hinv.baseline_isObject,
    coherent_of_all_clear (reset_clear form) (reset_lengths hinv), hinv.baselineItems, hpool, ?_⟩
  · rw [reset_formData]
    split
    · exact hinv.formData_wf
    · exact hinv.baseline_wf
  · rw [reset_formData]
    split
    · exact hinv.formData_isObject
    · exact hinv.baseline_isObject
  · have hb := hinv.batches
    cases h : jsonValuesEqual form.formData form.baseline <;>
      simp [reset, advance, mapControls, untouchArrays, h, hb]

/-- A reset that counts nothing finds nothing to do. -/
theorem reset_state (form : Form) : form.StateExact form.reset := by
  cases hdata : jsonValuesEqual form.formData form.baseline with
  | false => exact .inr (by simp [reset, advance, mapControls, untouchArrays, hdata])
  | true =>
    by_cases hch : (form.topologyChanged || form.submissionAttempted ||
        form.allControls.any ControlState.hasLifecycleState || form.arrays.any (·.touched)) = true
    · exact .inr (by simp [reset, advance, mapControls, untouchArrays, hdata, hch])
    · refine .inl ?_
      have hch' := Bool.eq_false_iff.mpr hch
      simp only [Bool.or_eq_false_iff] at hch'
      obtain ⟨⟨⟨htop, hsub⟩, hlife⟩, htouch⟩ := hch'
      have hmap : form.mapControls ControlState.clearLifecycleState = form := by
        refine mapControls_eq_self fun c hc => ?_
        have := List.any_eq_false.mp hlife c hc
        obtain ⟨d, buffer, blocker, touched⟩ := c
        cases buffer <;> cases blocker <;> cases touched <;>
          simp_all [ControlState.hasLifecycleState, ControlState.hasEditState,
            ControlState.clearLifecycleState, ControlState.clearEditState]
      have huntouch : form.untouchArrays = form := by
        have harrays : form.arrays.map (fun array => { array with touched := false }) =
            form.arrays := by
          refine (List.map_congr_left fun a ha => ?_).trans (List.map_id _)
          have := List.any_eq_false.mp htouch a ha
          obtain ⟨d, items, touched⟩ := a
          simp_all
        simp only [untouchArrays, harrays]
      simp only [reset, hmap, huntouch, hdata, htop, hsub, hlife, htouch]
      have : { form with submissionAttempted := false } = form := by rw [← hsub]
      simpa [advance] using this

theorem reset_step (hinv : form.Inv definition numbers) :
    form.Step definition numbers form.reset :=
  ⟨reset_inv hinv, reset_pool hinv, reset_state form⟩

theorem reset_data (form : Form) : form.DataExact form.reset := by
  cases h : jsonValuesEqual form.formData form.baseline with
  | true => simp [DataExact, reset, advance, mapControls, untouchArrays, h]
  | false => simp [DataExact, reset, advance, mapControls, untouchArrays, h]

/-! ## Reinitialization -/

theorem reinitialize_cases {formData : Value} {r : Except CreateFormError Unit}
    (h : form.reinitialize formData = (form', r)) :
    (form' = form ∧ ∃ e, r = .error e) ∨
    (r = .ok () ∧ formData.isObject = true ∧ form' = { form with
      controls := form.controls.map ControlState.clearLifecycleState
      arrays := (freshArrays formData (form.arrays.map (·.definition)) form.nextItemIdentity).1
      nextItemIdentity :=
        (freshArrays formData (form.arrays.map (·.definition)) form.nextItemIdentity).2
      baselineArrayIdentities := (freshArrays formData (form.arrays.map (·.definition))
        form.nextItemIdentity).1.map (·.identities)
      formData := if jsonValuesEqual form.formData formData then form.formData else formData
      baseline := formData
      externalFindingBatches := []
      submissionAttempted := false
      dataRevision := form.dataRevision + 1
      stateRevision := form.stateRevision + 1 }) := by
  unfold reinitialize at h
  split at h
  · cases h; exact .inl ⟨rfl, _, rfl⟩
  · rename_i hobj
    cases h
    refine .inr ⟨rfl, by simpa using hobj, ?_⟩
    cases jsonValuesEqual form.formData formData <;> rfl

theorem reinitialize_pool {formData : Value} {r : Except CreateFormError Unit}
    (hinv : form.Inv definition numbers) (h : form.reinitialize formData = (form', r)) :
    IdentityPool.Step form.pool form'.pool := by
  rcases reinitialize_cases h with ⟨rfl, _⟩ | ⟨_, _, rfl⟩
  · exact .refl hinv.pool
  · obtain ⟨hle, hnd, hmem⟩ :=
      freshArrays_identities formData (form.arrays.map (·.definition)) form.nextItemIdentity
    exact .renew rfl hle hnd hmem

theorem reinitialize_clear {formData : Value}
    (h : form.reinitialize formData = (form', .ok ())) :
    ∀ c ∈ form'.allControls, c.hasEditState = false := by
  rcases reinitialize_cases h with ⟨_, _, hr⟩ | ⟨_, _, rfl⟩
  · cases hr
  intro c hc
  rcases List.mem_append.mp hc with hc | hc
  · obtain ⟨c, _, rfl⟩ := List.mem_map.mp hc
    rfl
  · obtain ⟨item, hitem, hc⟩ := List.mem_flatMap.mp hc
    obtain ⟨a, ha, hi⟩ := List.mem_flatMap.mp hitem
    obtain ⟨_, m, hitems⟩ := mem_freshArrays formData ha
    rw [hitems] at hi
    obtain ⟨identity, rfl⟩ := mem_freshArrayItems hi
    exact mem_new_controls hc

theorem reinitialize_step {formData : Value} {r : Except CreateFormError Unit}
    (hinv : form.Inv definition numbers) (hwf : formData.WF)
    (h : form.reinitialize formData = (form', r)) : form.Step definition numbers form' := by
  have hpool := reinitialize_pool hinv h
  rcases reinitialize_cases h with ⟨rfl, _⟩ | ⟨rfl, hobj, rfl⟩
  · exact .refl hinv
  · have hmap : (form.controls.map ControlState.clearLifecycleState).map (·.definition) =
        definition.controls := by
      rw [List.map_map, ← hinv.shaped.controls]
      rfl
    have hbaseline := freshArrays_baselineItems formData (form.arrays.map (·.definition))
      form.nextItemIdentity
    have hlen := lengths_of_identities
      (freshArrays_definitions formData (form.arrays.map (·.definition)) form.nextItemIdentity) rfl
      hbaseline
    refine ⟨⟨freshArrays_shaped formData hmap (by rw [← hinv.shaped.arrays]), ?_, ?_, hwf, hobj,
      coherent_of_all_clear (reinitialize_clear h) (fun a ha => ?_), ?_, hpool.wellFormed hinv.pool,
        rfl⟩,
      hpool, .inr rfl⟩
    · dsimp only
      split
      · exact hinv.formData_wf
      · exact hwf
    · dsimp only
      split
      · exact hinv.formData_isObject
      · exact hobj
    · rw [hlen a ha]
      dsimp only
      split
      · rename_i heq
        exact (length_arrayValues_congr hinv.formData_wf hwf heq).symm
      · rfl
    · rw [← hinv.shaped.arrays]
      exact hbaseline

/-! ## Submission -/

theorem prepareSubmission_form (form : Form) : form.prepareSubmission.1 =
    ({ form with submissionAttempted := true }.mapControls
      ControlState.finalizeEditBuffer).advance false
      (!form.submissionAttempted || form.allControls.any ControlState.canFinalize) := rfl

theorem prepareSubmission_inv (hinv : form.Inv definition numbers) :
    form.prepareSubmission.1.Inv definition numbers := by
  have hattempt : { form with submissionAttempted := true }.Inv definition numbers :=
    hinv.of_eq rfl rfl rfl rfl rfl rfl hinv.batches
  have hmap := hattempt.mapControls ControlState.finalizeEditBuffer
    finalizeEditBuffer_definition (fun _ _ h => h.finalizeEditBuffer)
  rw [prepareSubmission_form]
  exact hmap.of_eq rfl rfl rfl rfl rfl rfl hmap.batches

theorem finalizeEditBuffer_eq_self {control : ControlState} (h : control.canFinalize = false) :
    control.finalizeEditBuffer = control := by
  obtain ⟨d, buffer, blocker, touched⟩ := control
  cases blocker <;> cases buffer <;>
    simp_all [ControlState.finalizeEditBuffer, ControlState.canFinalize]

theorem prepareSubmission_state (form : Form) : form.StateExact form.prepareSubmission.1 := by
  rw [prepareSubmission_form]
  cases hch : (!form.submissionAttempted || form.allControls.any ControlState.canFinalize) with
  | true => exact .inr rfl
  | false =>
    refine .inl ?_
    simp only [Bool.or_eq_false_iff, Bool.not_eq_false'] at hch
    have hattempt : { form with submissionAttempted := true } = form := by rw [← hch.1]
    rw [hattempt, advance_false]
    refine mapControls_eq_self fun c hc => finalizeEditBuffer_eq_self ?_
    simpa using List.any_eq_false.mp hch.2 c hc

theorem prepareSubmission_step (hinv : form.Inv definition numbers) :
    form.Step definition numbers form.prepareSubmission.1 := by
  refine ⟨prepareSubmission_inv hinv, pool_eq_step hinv ?_, prepareSubmission_state form⟩
  exact mapControls_pool { form with submissionAttempted := true } _

theorem prepareSubmission_data (form : Form) : form.DataExact form.prepareSubmission.1 :=
  .of_eq rfl rfl

end Lifecycle

end Form

end Schemaform.Engine
