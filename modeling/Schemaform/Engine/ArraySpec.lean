import Schemaform.Engine.StructureSpec

/-!
# Engine.ArraySpec

Operations on array items: the items and the values of one array edited alike.

* `ItemsWrite`: the effect every array operation has, with `inv`, `length_eq` and `pool_step`.
* `appendArrayItem_cases` to `toggleArrayChoice_cases`: which edit an operation makes.
* `*_inv`, `*_data`, `*_state`: kept, counted exactly, counted at all.
-/

namespace Schemaform.Engine

open ListEdit

/-! ## Edits of values -/

theorem editItems_eq_some {edit : List Value → List Value} {c c' : Value}
    (h : editItems edit c = some c') : ∃ values, c = .array values ∧ c' = .array (edit values) := by
  cases c with
  | array values => cases h; exact ⟨values, rfl, rfl⟩
  | _ => cases h

theorem editItems_write {edit : List Value → List Value} {p : Pointer} {v w : Value}
    (h : p.modify (editItems edit) v = some w) : ∃ values,
      Pointer.resolve p v = some (.array values) ∧ Write p (some (.array (edit values))) v w := by
  obtain ⟨c, c', hc, hf, _⟩ := Pointer.modify_at h
  obtain ⟨values, rfl, rfl⟩ := editItems_eq_some hf
  have hw := modify_write h
  rw [hc, Option.bind_some, hf] at hw
  exact ⟨values, hc, hw⟩

theorem editItems_wf {edit : List Value → List Value} {p : Pointer} {v w : Value} (hv : v.WF)
    (hedit : ∀ values, Pointer.resolve p v = some (.array values) → ∀ u ∈ edit values, u.WF)
    (h : p.modify (editItems edit) v = some w) : w.WF := by
  refine Pointer.WF_modify hv (fun c c' hc hf => ?_) h
  obtain ⟨values, rfl, rfl⟩ := editItems_eq_some hf
  exact Value.wf_array.mpr (hedit values hc)

theorem arrayValues_of_resolve {p : Pointer} {v : Value} {values : List Value}
    (h : Pointer.resolve p v = some (.array values)) : arrayValues p v = values := by
  simp [arrayValues, h, Value.asArray]

theorem arrayValues_wf {p : Pointer} {v : Value} (hv : v.WF) : ∀ u ∈ arrayValues p v, u.WF := by
  unfold arrayValues
  cases hc : Pointer.resolve p v with
  | none => simp
  | some c =>
    cases c with
    | array items => exact Value.wf_array.mp (Pointer.WF_resolve hv hc)
    | _ => simp [Value.asArray]

/-- An array of another length is another value. -/
theorem not_same_of_length {l m : List Value} (h : l.length ≠ m.length) :
    ¬ SameValue (some (.array l)) (some (.array m)) := by
  intro hs
  cases hs with
  | some heq => exact h (jsonValuesEqual_array.mp heq).length_eq

/-- Swapping two equal values leaves an equal array, swapping different ones does not. -/
theorem swap_equal_iff {l : List Value} {i j : Nat} (hi : i < l.length) (hj : j < l.length)
    (hl : ∀ v ∈ l, v.WF) :
    jsonValuesEqual (.array l) (.array (swap l i j)) = jsonValuesEqual l[i] l[j] := by
  rw [Bool.eq_iff_iff, jsonValuesEqual_array, List.forall₂_iff_get]
  simp only [length_swap, List.get_eq_getElem, true_and]
  have hget (k : Nat) (hk : k < (swap l i j).length) (hkl : k < l.length) : (swap l i j)[k] =
      if k = j then l[i] else if k = i then l[j] else l[k] := by
    have := getElem?_swap l hi hj k
    rw [List.getElem?_eq_getElem hk, List.getElem?_eq_getElem hi, List.getElem?_eq_getElem hj,
      List.getElem?_eq_getElem hkl] at this
    split at this
    · rename_i hkj; rw [if_pos hkj]; exact Option.some.inj this
    · rename_i hkj
      rw [if_neg hkj]
      split at this
      · rename_i hki; rw [if_pos hki]; exact Option.some.inj this
      · rename_i hki; rw [if_neg hki]; exact Option.some.inj this
  constructor
  · intro h
    have := h i hi hi
    rw [hget i _ hi] at this
    by_cases hij : i = j
    · subst hij; exact jsonValuesEqual_refl _
    · simpa [hij] using this
  · intro h k hk hk'
    rw [hget k _ hk]
    by_cases hkj : k = j
    · subst hkj
      rw [if_pos rfl]
      exact jsonValuesEqual_symm (hl _ (List.getElem_mem hi)) (hl _ (List.getElem_mem hj)) h
    · rw [if_neg hkj]
      by_cases hki : k = i
      · subst hki; rw [if_pos rfl]; exact h
      · rw [if_neg hki]; exact jsonValuesEqual_refl _

namespace Form

/-! ## One edit of an array -/

/-- Every array operation: a write of the values, other items at the array's place, and possibly
identities off the counter. -/
structure ItemsWrite (form : Form) (binding : Pointer) (index : Nat) (array : ArrayState)
    (values' : List Value) (next : Nat) (formData : Value) : Prop where
  index_eq : form.arrayIndex binding = some index
  array_eq : form.array binding = some array
  write : Write binding (some (.array values')) form.formData formData
  wf : form.formData.WF → (∀ v ∈ values', v.WF) → formData.WF
  equal : form.formData.WF → ∀ values, Pointer.resolve binding form.formData = some (.array values) →
    jsonValuesEqual (.array values) (.array values') = true →
    jsonValuesEqual form.formData formData = true
  next_le : form.nextItemIdentity ≤ next

/-- The form such an edit leaves behind. -/
def writeItems (form : Form) (index : Nat) (items' : List ArrayItemState) (next : Nat)
    (formData : Value) : Form :=
  { form with formData, nextItemIdentity := next }.setItems index items'

section ItemsWrite

variable {definition : FormDefinition} {numbers : NumberInput} {form : Form} {binding : Pointer}
  {index : Nat} {array : ArrayState} {values' : List Value} {items' : List ArrayItemState}
  {next : Nat} {formData : Value}

theorem ItemsWrite.at (h : form.ItemsWrite binding index array values' next formData) :
    form.arrays[index]? = some array ∧ array.definition.binding = binding :=
  array_at h.index_eq h.array_eq

theorem mem_writeItems {a : ArrayState} (ha : form.arrays[index]? = some array)
    (h : a ∈ (form.writeItems index items' next formData).arrays) :
    a = { array with items := items' } ∨ ∃ j, j ≠ index ∧ form.arrays[j]? = some a := by
  rcases mem_modify h with ⟨b, hb, rfl⟩ | h
  · cases ha.symm.trans hb
    exact .inl rfl
  · exact .inr h

theorem writeItems_step (hinv : form.Inv definition numbers)
    (h : form.ItemsWrite binding index array values' next formData)
    (hnd : (items'.map (·.identity)).Nodup)
    (hmem : ∀ i ∈ items'.map (·.identity),
      i ∈ array.identities ∨ form.nextItemIdentity ≤ i ∧ i < next) :
    IdentityPool.Step form.pool (form.writeItems index items' next formData).pool := by
  have hmap : (form.writeItems index items' next formData).arrays.map (·.identities) =
      (form.arrays.map (·.identities)).modify index fun _ => items'.map (·.identity) := by
    refine map_modify_comm ?_ index form.arrays
    intro _; rfl
  have hnd' : ∀ l ∈ form.arrays.map (·.identities), l.Nodup :=
    (List.nodup_flatten.mp hinv.pool.current_nodup).1
  have hr : IdentityPool.Rewrites (form.arrays.map (·.identities)) form.nextItemIdentity
      ((form.arrays.map (·.identities)).modify index fun _ => items'.map (·.identity)) next := by
    refine .modify hnd' h.next_le (fun l hl => ?_) ?_
    · rw [getElem?_of_map h.at.1] at hl
      cases hl
      exact ⟨hnd, hmem⟩
    · rw [List.length_map]
      exact (List.getElem?_eq_some_iff.mp h.at.1).1
  rw [← hmap] at hr
  exact pool_step hinv.pool rfl hr

/-- Items and values edited alike keep the invariant. -/
theorem ItemsWrite.inv (hd : definition.WellFormed) (hinv : form.Inv definition numbers)
    (h : form.ItemsWrite binding index array values' next formData) (hwf : formData.WF)
    (hshape : ∀ item ∈ items',
      item.controls.map (·.definition) = array.definition.itemTemplate.controls)
    (hco : List.Forall₂ (ItemCoherent numbers) items' values')
    (hnd : (items'.map (·.identity)).Nodup)
    (hmem : ∀ i ∈ items'.map (·.identity),
      i ∈ array.identities ∨ form.nextItemIdentity ≤ i ∧ i < next) :
    (form.writeItems index items' next formData).Inv definition numbers := by
  obtain ⟨hat, rfl⟩ := h.at
  have hs := hinv.shaped
  have hroot : array.definition.binding ≠ [] := hd.leaves_ne_root _ (List.mem_append_right _
    (List.mem_map_of_mem (hs.array_mem (List.mem_of_getElem? hat))))
  refine ⟨⟨hs.controls, ?_, fun a ha => ?_⟩, hwf, ?_, hinv.baseline_wf, hinv.baseline_isObject,
    ⟨fun c hc => ?_, fun a ha => ?_⟩, hinv.baselineItems,
    (writeItems_step hinv h hnd hmem).wellFormed hinv.pool, hinv.batches⟩
  · rw [← hs.arrays]
    refine map_modify ?_ index form.arrays
    intro _; rfl
  · rcases mem_writeItems hat ha with rfl | ⟨j, _, hj⟩
    · exact hshape
    · exact hs.items a (List.mem_of_getElem? hj)
  · exact (h.write.isObject hroot).trans hinv.formData_isObject
  · have hap := hs.control_array_apart hd hc (List.mem_of_getElem? hat)
    change ControlCoherent numbers (Pointer.resolve c.definition.binding formData) c
    rw [h.write.apart _ hap.symm]
    exact hinv.coherent.controls c hc
  · rcases mem_writeItems hat ha with rfl | ⟨j, hij, hj⟩
    · change List.Forall₂ _ _ (arrayValues array.definition.binding formData)
      rwa [arrayValues_of_resolve h.write.at_self]
    · change List.Forall₂ _ _ (arrayValues a.definition.binding formData)
      rw [arrayValues_apart h.write (hs.arrays_apart hd hat hj (Ne.symm hij))]
      exact hinv.coherent.arrays a (List.mem_of_getElem? hj)

theorem ItemsWrite.not_equal (hinv : form.Inv definition numbers)
    (h : form.ItemsWrite binding index array values' next formData) (hv : ∀ v ∈ values', v.WF)
    (hne : ¬ SameValue (binding.resolve form.formData) (some (.array values'))) :
    jsonValuesEqual form.formData formData = false :=
  h.write.not_equal hinv.formData_wf (h.wf hinv.formData_wf hv) hne

theorem itemsWrite_of_modify {edit : List Value → List Value}
    (hi : form.arrayIndex binding = some index) (ha : form.array binding = some array)
    (hm : array.definition.binding.modify (editItems edit) form.formData = some formData)
    (hle : form.nextItemIdentity ≤ next) : ∃ values,
      Pointer.resolve binding form.formData = some (.array values) ∧
      form.ItemsWrite binding index array (edit values) next formData := by
  obtain ⟨_, rfl⟩ := array_at hi ha
  obtain ⟨values, hv, hw⟩ := editItems_write hm
  refine ⟨values, hv, hi, ha, hw, fun hwf hvs => ?_, fun hwf values' hv' heq => ?_, hle⟩
  · refine editItems_wf hwf (fun values' hv' => ?_) hm
    cases hv.symm.trans hv'
    exact hvs
  · cases hv.symm.trans hv'
    refine jsonValuesEqual_modify hwf (fun c c' hc hf => ?_) hm
    cases hv.symm.trans hc
    cases hf
    exact heq

end ItemsWrite

/-! ## The items of a coherent array -/

section Items

variable {definition : FormDefinition} {numbers : NumberInput} {form : Form} {array : ArrayState}
  {values : List Value}

theorem Inv.items_coherent (hinv : form.Inv definition numbers) (ha : array ∈ form.arrays)
    (hv : Pointer.resolve array.definition.binding form.formData = some (.array values)) :
    List.Forall₂ (ItemCoherent numbers) array.items values := by
  have := hinv.coherent.arrays array ha
  rwa [ArrayCoherent, arrayValues_of_resolve hv] at this

theorem Inv.values_wf (hinv : form.Inv definition numbers) {p : Pointer}
    (hv : Pointer.resolve p form.formData = some (.array values)) : ∀ v ∈ values, v.WF :=
  Value.wf_array.mp (Pointer.WF_resolve hinv.formData_wf hv)

theorem Inv.next_not_mem (hinv : form.Inv definition numbers) (ha : array ∈ form.arrays) :
    form.nextItemIdentity ∉ array.identities := by
  intro h
  have := hinv.pool.current_lt _
    (List.mem_flatten.mpr ⟨_, List.mem_map_of_mem ha, h⟩)
  exact absurd this (Nat.lt_irrefl _)

/-- Old items, and new ones with identities from the counter on. -/
def KeptOrNew (form : Form) (array : ArrayState) (next : Nat) (items' : List ArrayItemState) :
    Prop :=
  ∀ item ∈ items', item ∈ array.items ∨ ∃ i, form.nextItemIdentity ≤ i ∧ i < next ∧
    item = ArrayItemState.new i array.definition

theorem KeptOrNew.identities {next : Nat} {items' : List ArrayItemState}
    (h : form.KeptOrNew array next items') : ∀ i ∈ items'.map (·.identity),
      i ∈ array.identities ∨ form.nextItemIdentity ≤ i ∧ i < next := by
  intro i hi
  obtain ⟨item, hitem, rfl⟩ := List.mem_map.mp hi
  rcases h item hitem with hmem | ⟨i, hle, hlt, rfl⟩
  · exact .inl (List.mem_map_of_mem hmem)
  · exact .inr ⟨hle, hlt⟩

theorem KeptOrNew.shape (hinv : form.Inv definition numbers) (ha : array ∈ form.arrays)
    {next : Nat} {items' : List ArrayItemState} (h : form.KeptOrNew array next items') :
    ∀ item ∈ items',
      item.controls.map (·.definition) = array.definition.itemTemplate.controls := by
  intro item hitem
  rcases h item hitem with hmem | ⟨i, _, _, rfl⟩
  · exact hinv.shaped.items array ha item hmem
  · exact new_controls _ _

/-- A new item among the old ones. -/
theorem insertIdx_identities (hinv : form.Inv definition numbers) (ha : array ∈ form.arrays)
    (position : Nat) {items' : List ArrayItemState}
    (hi : items' =
      array.items.insertIdx position (ArrayItemState.new form.nextItemIdentity array.definition)) :
    (items'.map (·.identity)).Nodup ∧ form.KeptOrNew array (form.nextItemIdentity + 1) items' := by
  subst hi
  have hmap : (array.items.insertIdx position
      (ArrayItemState.new form.nextItemIdentity array.definition)).map (·.identity) =
      array.identities.insertIdx position form.nextItemIdentity := List.map_insertIdx ..
  refine ⟨?_, fun item hi => ?_⟩
  · rw [hmap]
    by_cases hp : position ≤ array.identities.length
    · refine (List.perm_insertIdx _ _ hp).nodup_iff.mpr (List.nodup_cons.mpr ⟨?_, ?_⟩)
      · exact hinv.next_not_mem ha
      · exact hinv.identities_nodup array ha
    · rw [List.insertIdx_of_length_lt (by omega)]
      exact hinv.identities_nodup array ha
  · rcases List.eq_or_mem_of_mem_insertIdx hi with rfl | hi
    · exact .inr ⟨_, Nat.le_refl _, Nat.lt_succ_self _, rfl⟩
    · exact .inl hi

theorem sublist_identities (hinv : form.Inv definition numbers) (ha : array ∈ form.arrays)
    {items' : List ArrayItemState} (hsub : items'.Sublist array.items) :
    (items'.map (·.identity)).Nodup :=
  List.Nodup.sublist (hsub.map _) (hinv.identities_nodup array ha)

end Items

/-! ## Which edit an operation makes -/

section Cases

variable {form form' : Form} {binding : Pointer}

theorem appendArrayItem_cases {r : Except EditError Nat}
    (h : form.appendArrayItem binding = (form', r)) :
    (form' = form ∧ ∃ e, r = .error e) ∨
    ∃ index array values formData, r = .ok form.nextItemIdentity ∧
      Pointer.resolve binding form.formData = some (.array values) ∧
      form.ItemsWrite binding index array (values ++ [array.definition.itemTemplate.creationSeed])
        (form.nextItemIdentity + 1) formData ∧
      form' = (form.writeItems index
        (array.items ++ [ArrayItemState.new form.nextItemIdentity array.definition])
        (form.nextItemIdentity + 1) formData).dataChanged := by
  simp only [appendArrayItem] at h
  split at h
  · cases h; exact .inl ⟨rfl, _, rfl⟩
  · split at h
    · rename_i index array hi ha
      split at h
      · cases h; exact .inl ⟨rfl, _, rfl⟩
      · rename_i formData hm
        cases h
        obtain ⟨values, hv, hw⟩ := itemsWrite_of_modify hi ha hm (Nat.le_succ _)
        exact .inr ⟨index, array, values, formData, rfl, hv, hw, rfl⟩
    · cases h; exact .inl ⟨rfl, _, rfl⟩

theorem insertItemAt_cases {index position : Nat} {array : ArrayState} {seed : Value}
    (hi : form.arrayIndex binding = some index) (ha : form.array binding = some array)
    (h : form.insertItemAt index array position seed = some form') :
    ∃ values formData, Pointer.resolve binding form.formData = some (.array values) ∧
      form.ItemsWrite binding index array (values.insertIdx position seed)
        (form.nextItemIdentity + 1) formData ∧
      form' = (form.writeItems index (array.items.insertIdx position
        (ArrayItemState.new form.nextItemIdentity array.definition)) (form.nextItemIdentity + 1)
        formData).dataChanged := by
  simp only [insertItemAt, Option.bind_eq_bind, Option.bind_eq_some_iff] at h
  obtain ⟨formData, hm, h⟩ := h
  cases h
  obtain ⟨values, hv, hw⟩ := itemsWrite_of_modify hi ha hm (Nat.le_succ _)
  exact ⟨values, formData, hv, hw, rfl⟩

theorem insertArrayItemBefore_cases {before : Nat} {r : Except EditError InsertedArrayItem}
    (h : form.insertArrayItemBefore binding before = (form', r)) :
    (form' = form ∧ ∃ e, r = .error e) ∨
    ∃ index array position values formData,
      array.items.findIdx? (·.identity == before) = some position ∧
      r = .ok ⟨form.nextItemIdentity, identitiesFrom array.items position⟩ ∧
      Pointer.resolve binding form.formData = some (.array values) ∧
      form.ItemsWrite binding index array
        (values.insertIdx position array.definition.itemTemplate.creationSeed)
        (form.nextItemIdentity + 1) formData ∧
      form' = (form.writeItems index (array.items.insertIdx position
        (ArrayItemState.new form.nextItemIdentity array.definition)) (form.nextItemIdentity + 1)
        formData).dataChanged := by
  simp only [insertArrayItemBefore] at h
  split at h
  · cases h; exact .inl ⟨rfl, _, rfl⟩
  · split at h
    · rename_i index array hi ha
      split at h
      · cases h; exact .inl ⟨rfl, _, rfl⟩
      · rename_i position hp
        split at h
        · cases h; exact .inl ⟨rfl, _, rfl⟩
        · rename_i form'' hins
          cases h
          obtain ⟨values, formData, hv, hw, rfl⟩ := insertItemAt_cases hi ha hins
          exact .inr ⟨index, array, position, values, formData, hp, rfl, hv, hw, rfl⟩
    · cases h; exact .inl ⟨rfl, _, rfl⟩

theorem removeArrayItem_cases {identity : Nat} {r : Except EditError RemovedArrayItem}
    (h : form.removeArrayItem binding identity = (form', r)) :
    (form' = form ∧ ∃ e, r = .error e) ∨
    ∃ index array position values formData,
      array.items.findIdx? (·.identity == identity) = some position ∧
      r = .ok ⟨identity, identitiesFrom array.items (position + 1)⟩ ∧
      Pointer.resolve binding form.formData = some (.array values) ∧
      form.ItemsWrite binding index array (values.eraseIdx position) form.nextItemIdentity
        formData ∧
      form' = (form.writeItems index (array.items.eraseIdx position) form.nextItemIdentity
        formData).dataChanged := by
  simp only [removeArrayItem] at h
  split at h
  · cases h; exact .inl ⟨rfl, _, rfl⟩
  · split at h
    · rename_i index array hi ha
      split at h
      · cases h; exact .inl ⟨rfl, _, rfl⟩
      · rename_i position hp
        split at h
        · cases h; exact .inl ⟨rfl, _, rfl⟩
        · rename_i formData hm
          cases h
          obtain ⟨values, hv, hw⟩ := itemsWrite_of_modify hi ha hm (Nat.le_refl _)
          exact .inr ⟨index, array, position, values, formData, hp, rfl, hv, hw, rfl⟩
    · cases h; exact .inl ⟨rfl, _, rfl⟩

theorem moveDestination_lt {direction : ArrayMove} {index len destination : Nat}
    (hlt : index < len) (h : moveDestination direction index len = some destination) :
    destination < len ∧ destination ≠ index := by
  cases direction with
  | up =>
    simp only [moveDestination] at h
    split at h
    · cases h
    · cases h; omega
  | down =>
    simp only [moveDestination] at h
    split at h
    · cases h; omega
    · cases h

theorem moveArrayItem_cases {direction : ArrayMove} {identity : Nat}
    {r : Except EditError MovedArrayItem}
    (h : moveArrayItem direction form binding identity = (form', r)) :
    (form' = form ∧ ∃ e, r = .error e) ∨
    ∃ index array source destination values formData displaced dataChanged,
      array.items.findIdx? (·.identity == identity) = some source ∧
      moveDestination direction source array.items.length = some destination ∧
      (array.items[destination]?).map (·.identity) = some displaced ∧
      dataChanged = !jsonValuesEqual (values.getD source .null) (values.getD destination .null) ∧
      r = .ok ⟨identity, displaced, source, destination, dataChanged⟩ ∧
      Pointer.resolve binding form.formData = some (.array values) ∧
      form.ItemsWrite binding index array (swap values source destination) form.nextItemIdentity
        formData ∧
      form' = (form.writeItems index (swap array.items source destination) form.nextItemIdentity
        formData).advance dataChanged true := by
  simp only [moveArrayItem] at h
  split at h
  · rename_i index array hi ha
    split at h
    · cases h; exact .inl ⟨rfl, _, rfl⟩
    · rename_i source hsource
      split at h
      · cases h; exact .inl ⟨rfl, _, rfl⟩
      · rename_i destination hdest
        split at h
        · rename_i values formData hv hm
          cases h
          obtain ⟨values', hv', hw⟩ := itemsWrite_of_modify hi ha hm (Nat.le_refl _)
          rw [(array_at hi ha).2, hv', Option.bind_some, Value.asArray] at hv
          cases hv
          obtain ⟨hlt, _⟩ := List.findIdx?_eq_some_iff_getElem.mp hsource
          obtain ⟨hlt', _⟩ := moveDestination_lt hlt hdest
          have hd : (array.items[destination]?).map (·.identity) =
              some array.items[destination].identity := by
            rw [List.getElem?_eq_getElem hlt', Option.map_some]
          refine .inr ⟨index, array, source, destination, _, formData, _, _, hsource, hdest,
            hd, rfl, ?_, hv', hw, rfl⟩
          rw [hd, Option.getD_some]
        · cases h; exact .inl ⟨rfl, _, rfl⟩
  · cases h; exact .inl ⟨rfl, _, rfl⟩

theorem choiceInsertPosition_le (choices members : List Value) (optionIndex : Nat) :
    choiceInsertPosition choices members optionIndex ≤ members.length := by
  unfold choiceInsertPosition
  cases hf : members.findIdx? fun member =>
      (optionPosition choices member).any fun later => decide (later > optionIndex) with
  | none => exact Nat.le_refl _
  | some i => exact (List.findIdx?_eq_some_iff_getElem.mp hf).1.le

theorem carrying_lt {members : List Value} {value : Value} :
    ∀ i ∈ carrying members value, i < members.length := by
  intro i hi
  obtain ⟨⟨v, j⟩, hmem, rfl⟩ := List.mem_map.mp hi
  obtain ⟨hmem, _⟩ := List.mem_filter.mp hmem
  exact (List.getElem?_eq_some_iff.mp (List.mem_zipIdx_iff_getElem?.mp hmem)).1

/-- The data with an array at the multiple choice: as they are, or with an empty one created. -/
def Created (form : Form) (binding : Pointer) (values : List Value) (formData : Value) : Prop :=
  (Pointer.resolve binding form.formData = some (.array values) ∧ formData = form.formData) ∨
  Pointer.resolve binding form.formData = none ∧ values = [] ∧
    setBoundValue binding (.array []) form.formData = some formData

theorem Created.present {values : List Value} {formData : Value}
    (hc : form.Created binding values formData) :
    Pointer.resolve binding form.formData = some (.array values) ∨
    Pointer.resolve binding form.formData = none ∧ values = [] :=
  hc.imp (·.1) fun h => ⟨h.1, h.2.1⟩

theorem Created.itemsWrite {index next : Nat} {array : ArrayState} {values values' : List Value}
    {formData₀ formData : Value} (hc : form.Created binding values formData₀)
    (h : { form with formData := formData₀ }.ItemsWrite binding index array values' next formData) :
    form.ItemsWrite binding index array values' next formData := by
  rcases hc with ⟨_, rfl⟩ | ⟨hnone, _, hset⟩
  · exact h
  · refine ⟨h.index_eq, h.array_eq, (setBoundValue_write hset).overwrite h.write, ?_, ?_, h.next_le⟩
    · exact fun hwf => h.wf (setBoundValue_wf hwf (Value.wf_array.mpr (by simp)) hset)
    · intro _ values hv
      cases hnone.symm.trans hv

theorem created_of_gate {formData : Value} (hgate : form.arrayCanToggleChoice binding = true)
    (h : (if (Pointer.resolve binding form.formData).isNone then
        setBoundValue binding (.array []) form.formData else some form.formData) = some formData) :
    form.Created binding (arrayValues binding form.formData) formData ∧
    Pointer.resolve binding formData = some (.array (arrayValues binding form.formData)) ∧
    ∃ array, form.array binding = some array ∧ array.definition.isMultipleChoice = true := by
  obtain ⟨array, hfilter, hgate⟩ := (Option.any_eq_true _ _).mp hgate
  obtain ⟨ha, hmc⟩ := Option.filter_eq_some_iff.mp hfilter
  rw [(array_mem ha).2] at hgate
  cases hv : Pointer.resolve binding form.formData with
  | none =>
    rw [hv, Option.isNone_none, if_pos rfl] at h
    have hvalues : arrayValues binding form.formData = [] := by simp [arrayValues, hv]
    rw [hvalues]
    exact ⟨.inr ⟨hv, rfl, h⟩, (setBoundValue_write h).at_self, array, ha, hmc⟩
  | some c =>
    rw [hv] at hgate
    obtain ⟨values, rfl⟩ := Value.isArray_iff.mp hgate
    rw [hv, Option.isNone_some, if_neg Bool.false_ne_true] at h
    cases h
    rw [arrayValues_of_resolve hv]
    exact ⟨.inl ⟨hv, rfl⟩, hv, array, ha, hmc⟩

theorem carrying_sorted (members : List Value) (value : Value) :
    (carrying members value).Pairwise (· < ·) := by
  refine List.Pairwise.sublist (List.filter_sublist.map _) ?_
  rw [List.zipIdx_map_snd]
  exact List.pairwise_lt_range'

/-- What a toggle inserts and where, or which members it removes. -/
theorem toggleArrayChoice_exact {value : Value} {r : Except EditError ToggledArrayChoice}
    (h : form.toggleArrayChoice binding value = (form', r)) :
    (form' = form ∧ ∃ e, r = .error e) ∨
    ∃ (index : Nat) (array : ArrayState) (option : Value) (optionIndex : Nat)
      (formData₀ formData : Value),
      array.definition.isMultipleChoice = true ∧
      array.definition.choices.findIdx? (jsonValuesEqual · value) = some optionIndex ∧
      array.definition.choices[optionIndex]? = some option ∧
      form.Created binding (arrayValues binding form.formData) formData₀ ∧
      ((carrying (arrayValues binding form.formData) option = [] ∧
        r = .ok (.included ⟨form.nextItemIdentity, identitiesFrom array.items
          (choiceInsertPosition array.definition.choices (arrayValues binding form.formData)
            optionIndex)⟩) ∧
        form.ItemsWrite binding index array
          ((arrayValues binding form.formData).insertIdx (choiceInsertPosition
            array.definition.choices (arrayValues binding form.formData) optionIndex) option)
          (form.nextItemIdentity + 1) formData ∧
        form' = (form.writeItems index (array.items.insertIdx (choiceInsertPosition
            array.definition.choices (arrayValues binding form.formData) optionIndex)
          (ArrayItemState.new form.nextItemIdentity array.definition)) (form.nextItemIdentity + 1)
          formData).dataChanged) ∨
      ∃ first rest, carrying (arrayValues binding form.formData) option = first :: rest ∧
        r = .ok (.excluded
          ((carrying (arrayValues binding form.formData) option).filterMap fun i =>
            (array.items[i]?).map (·.identity))
          (identitiesFrom (eraseIndices array.items
            (carrying (arrayValues binding form.formData) option)) first)) ∧
        form.ItemsWrite binding index array (eraseIndices (arrayValues binding form.formData)
          (carrying (arrayValues binding form.formData) option)) form.nextItemIdentity formData ∧
        form' = (form.writeItems index (eraseIndices array.items
            (carrying (arrayValues binding form.formData) option))
          form.nextItemIdentity formData).dataChanged) := by
  simp only [toggleArrayChoice] at h
  split at h
  · cases h; exact .inl ⟨rfl, _, rfl⟩
  · rename_i hgate
    split at h
    · rename_i index array hi ha
      obtain ⟨_, rfl⟩ := array_at hi ha
      have hvalues : ((Pointer.resolve array.definition.binding form.formData).bind
          Value.asArray).getD [] = arrayValues array.definition.binding form.formData := rfl
      simp only [hvalues] at h
      split at h
      · cases h; exact .inl ⟨rfl, _, rfl⟩
      · rename_i optionIndex hopt
        obtain ⟨option, ho, _⟩ := findIdx?_some hopt
        simp only [List.getD_eq_getElem?_getD, ho, Option.getD_some] at h
        split at h
        · cases h; exact .inl ⟨rfl, _, rfl⟩
        · rename_i formData₀ hcreate
          obtain ⟨hc, hv₀, array', ha', hmc⟩ := created_of_gate (by simpa using hgate) hcreate
          cases ha.symm.trans ha'
          split at h
          · rename_i hcarry
            split at h
            · rename_i hins
              obtain ⟨w, hw⟩ := Pointer.modify_isSome (f := editItems fun values =>
                values.insertIdx (choiceInsertPosition array.definition.choices
                  (arrayValues array.definition.binding form.formData) optionIndex) option) hv₀ rfl
              simp [insertItemAt, hw] at hins
            · rename_i form'' hins
              cases h
              have hi' : { form with formData := formData₀ }.arrayIndex array.definition.binding =
                some index := hi
              obtain ⟨values, formData, hv, hw, rfl⟩ := insertItemAt_cases hi' ha hins
              cases hv₀.symm.trans hv
              exact .inr ⟨index, array, option, optionIndex, formData₀, formData, hmc, hopt, ho, hc,
                .inl ⟨List.isEmpty_iff.mp hcarry, rfl, hc.itemsWrite hw, rfl⟩⟩
          · rename_i hcarry
            split at h
            · rename_i hm
              obtain ⟨w, hw⟩ := Pointer.modify_isSome (f := editItems fun values =>
                eraseIndices values (carrying (arrayValues array.definition.binding form.formData)
                  option)) hv₀ rfl
              cases hw.symm.trans hm
            · rename_i formData hm
              cases h
              obtain ⟨first, rest, hfr⟩ := List.exists_cons_of_ne_nil
                (fun (he : carrying (arrayValues array.definition.binding form.formData) option =
                  []) => hcarry (by rw [he]; rfl))
              have hi' : { form with formData := formData₀ }.arrayIndex array.definition.binding =
                some index := hi
              obtain ⟨values, hv, hw⟩ := itemsWrite_of_modify hi' ha hm (Nat.le_refl _)
              cases hv₀.symm.trans hv
              refine .inr ⟨index, array, option, optionIndex, formData₀, formData, hmc, hopt, ho, hc,
                .inr ⟨first, rest, hfr, ?_, hc.itemsWrite hw, rfl⟩⟩
              rw [hfr]
              rfl
    · cases h; exact .inl ⟨rfl, _, rfl⟩

/-- The values an include or exclude starts from: those of the array, none when it is absent. -/
theorem toggleArrayChoice_cases {value : Value} {r : Except EditError ToggledArrayChoice}
    (h : form.toggleArrayChoice binding value = (form', r)) :
    (form' = form ∧ ∃ e, r = .error e) ∨
    ∃ (index : Nat) (array : ArrayState) (option : Value) (values : List Value)
      (formData₀ formData : Value),
      array.definition.isMultipleChoice = true ∧ option ∈ array.definition.choices ∧
      form.Created binding values formData₀ ∧
      ((∃ position, position ≤ values.length ∧
        r = .ok (.included ⟨form.nextItemIdentity, identitiesFrom array.items position⟩) ∧
        form.ItemsWrite binding index array (values.insertIdx position option)
          (form.nextItemIdentity + 1) formData ∧
        form' = (form.writeItems index (array.items.insertIdx position
          (ArrayItemState.new form.nextItemIdentity array.definition)) (form.nextItemIdentity + 1)
          formData).dataChanged) ∨
      ∃ first rest, carrying values option = first :: rest ∧
        r = .ok (.excluded
          ((carrying values option).filterMap fun i => (array.items[i]?).map (·.identity))
          (identitiesFrom (eraseIndices array.items (carrying values option)) first)) ∧
        form.ItemsWrite binding index array (eraseIndices values (carrying values option))
          form.nextItemIdentity formData ∧
        form' = (form.writeItems index (eraseIndices array.items (carrying values option))
          form.nextItemIdentity formData).dataChanged) := by
  rcases toggleArrayChoice_exact h with hr | ⟨index, array, option, _, formData₀, formData, hmc, _,
    ho, hc, ⟨_, hr, hw, hf⟩ | ⟨first, rest, hfr, hr, hw, hf⟩⟩
  · exact .inl hr
  · exact .inr ⟨index, array, option, _, formData₀, formData, hmc, List.mem_of_getElem? ho, hc,
      .inl ⟨_, choiceInsertPosition_le _ _ _, hr, hw, hf⟩⟩
  · exact .inr ⟨index, array, option, _, formData₀, formData, hmc, List.mem_of_getElem? ho, hc,
      .inr ⟨first, rest, hfr, hr, hw, hf⟩⟩

end Cases

/-! ## Kept and counted -/

/-- An array operation that went through: items and values edited alike, identities kept or new,
and the data revision advanced as the data were. -/
structure ItemsEdited (numbers : NumberInput) (form form' : Form) : Prop where
  edited : ∃ binding index array values' items' next formData dataChanged,
    form.ItemsWrite binding index array values' next formData ∧
    (∀ v ∈ values', v.WF) ∧
    List.Forall₂ (ItemCoherent numbers) items' values' ∧
    (items'.map (·.identity)).Nodup ∧ form.KeptOrNew array next items' ∧
    jsonValuesEqual form.formData formData = !dataChanged ∧
    form' = (form.writeItems index items' next formData).advance dataChanged true

section Edited

variable {definition : FormDefinition} {numbers : NumberInput} {form form' : Form}
    {binding : Pointer}

theorem ItemsEdited.step (hd : definition.WellFormed) (hinv : form.Inv definition numbers)
    (h : form.ItemsEdited numbers form') : form.Step definition numbers form' := by
  obtain ⟨binding, index, array, values', items', next, formData, dataChanged, hw, hv, hco, hnd,
    hkept, _, rfl⟩ := h.edited
  have hmem := hkept.identities
  have hshape := hkept.shape hinv (List.mem_of_getElem? hw.at.1)
  have hinv' := hw.inv hd hinv (hw.wf hinv.formData_wf hv) hshape hco hnd hmem
  refine ⟨hinv'.of_eq rfl rfl rfl rfl rfl rfl ?_, writeItems_step hinv hw hnd hmem, .inr ?_⟩
  · cases dataChanged
    · exact hinv'.batches
    · rfl
  · cases dataChanged <;> rfl

theorem ItemsEdited.data (h : form.ItemsEdited numbers form') : form.DataExact form' := by
  obtain ⟨binding, index, array, values', items', next, formData, dataChanged, _, _, _, _, _, heq,
    rfl⟩ := h.edited
  cases dataChanged
  · simp [DataExact, advance, writeItems, setItems, heq]
  · exact .of_ne heq rfl

theorem ItemsEdited.advanced (h : form.ItemsEdited numbers form') :
    form'.stateRevision ≠ form.stateRevision := by
  obtain ⟨_, _, _, _, _, _, _, dataChanged, _, _, _, _, _, _, rfl⟩ := h.edited
  cases dataChanged <;> exact Nat.succ_ne_self _

theorem findIdx?_lt {α : Type} {p : α → Bool} {l : List α} {i : Nat} (h : l.findIdx? p = some i) :
    i < l.length := (List.findIdx?_eq_some_iff_getElem.mp h).1

theorem template_seed_wf (hd : definition.WellFormed) (hinv : form.Inv definition numbers)
    {array : ArrayState} (ha : array ∈ form.arrays) :
    array.definition.itemTemplate.creationSeed.WF :=
  (hd.template_wf _ (hinv.shaped.array_mem ha)).seed_wf

theorem mem_choices_wf (hd : definition.WellFormed) {array : ArrayDefinition}
    (ha : array ∈ definition.arrays) {option : Value} (ho : option ∈ array.choices) :
    option.WF := by
  unfold ArrayDefinition.choices at ho
  split at ho
  · cases ho
  · cases hc : array.itemTemplate.controls with
    | nil => rw [hc] at ho; cases ho
    | cons c cs =>
      rw [hc] at ho
      exact (hd.template_wf _ ha).choices_wf c (hc ▸ List.mem_cons_self) _ ho

theorem insert_edited {index position : Nat} {array : ArrayState} {values : List Value}
    {seed formData : Value} (hinv : form.Inv definition numbers)
    (hold : Pointer.resolve binding form.formData = some (.array values) ∨
      Pointer.resolve binding form.formData = none ∧ values = [])
    (hp : position ≤ values.length) (hseed : seed.WF)
    (hw : form.ItemsWrite binding index array (values.insertIdx position seed)
      (form.nextItemIdentity + 1) formData) :
    form.ItemsEdited numbers (form.writeItems index (array.items.insertIdx position
      (ArrayItemState.new form.nextItemIdentity array.definition)) (form.nextItemIdentity + 1)
      formData).dataChanged := by
  obtain ⟨hat, rfl⟩ := hw.at
  have ha := List.mem_of_getElem? hat
  have hvalues : arrayValues array.definition.binding form.formData = values := by
    rcases hold with hv | ⟨hv, rfl⟩
    · exact arrayValues_of_resolve hv
    · simp [arrayValues, hv]
  have hco : List.Forall₂ (ItemCoherent numbers) array.items values :=
    hvalues ▸ hinv.coherent.arrays array ha
  have hwf : ∀ v ∈ values.insertIdx position seed, v.WF := by
    intro v hv
    rcases List.eq_or_mem_of_mem_insertIdx hv with rfl | hv
    · exact hseed
    · exact arrayValues_wf hinv.formData_wf v (hvalues ▸ hv)
  obtain ⟨hnd, hkept⟩ := insertIdx_identities hinv ha position rfl
  refine ⟨_, index, array, _, _, _, formData, true, hw, hwf,
    forall₂_insertIdx hco position (itemCoherent_new numbers _ _ seed), hnd, hkept, ?_, rfl⟩
  refine hw.not_equal hinv hwf ?_
  rcases hold with hv | ⟨hv, rfl⟩
  · rw [hv]
    refine not_same_of_length ?_
    rw [List.length_insertIdx_of_le_length hp]
    omega
  · rw [hv]
    intro h
    cases h

theorem erase_edited {index : Nat} {array : ArrayState} {values values' : List Value}
    {items' : List ArrayItemState} {formData : Value} (hinv : form.Inv definition numbers)
    (hv : Pointer.resolve binding form.formData = some (.array values))
    (hsub : values'.Sublist values) (hlen : values'.length < values.length)
    (hitems : items'.Sublist array.items) (hco : List.Forall₂ (ItemCoherent numbers) items' values')
    (hw : form.ItemsWrite binding index array values' form.nextItemIdentity formData) :
    form.ItemsEdited numbers
      (form.writeItems index items' form.nextItemIdentity formData).dataChanged := by
  obtain ⟨hat, rfl⟩ := hw.at
  have ha := List.mem_of_getElem? hat
  have hwf : ∀ v ∈ values', v.WF := fun v h => hinv.values_wf hv v (hsub.subset h)
  refine ⟨_, index, array, _, _, _, formData, true, hw, hwf, hco,
    sublist_identities hinv ha hitems, fun _ h => .inl (hitems.subset h), ?_, rfl⟩
  refine hw.not_equal hinv hwf ?_
  rw [hv]
  exact not_same_of_length (Nat.ne_of_gt hlen)

theorem appendArrayItem_edited {r : Except EditError Nat} (hd : definition.WellFormed)
    (hinv : form.Inv definition numbers) (h : form.appendArrayItem binding = (form', r)) :
    (form' = form ∧ ∃ e, r = .error e) ∨ form.ItemsEdited numbers form' := by
  refine (appendArrayItem_cases h).imp_right ?_
  rintro ⟨index, array, values, formData, _, hv, hw, rfl⟩
  obtain ⟨hat, rfl⟩ := hw.at
  have ha := List.mem_of_getElem? hat
  have hlen := (hinv.items_coherent ha hv).length_eq
  rw [← List.insertIdx_length_self] at hw
  rw [← List.insertIdx_length_self, hlen]
  exact insert_edited hinv (.inl hv) (Nat.le_refl _) (template_seed_wf hd hinv ha) hw

theorem insertArrayItemBefore_edited {before : Nat} {r : Except EditError InsertedArrayItem}
    (hd : definition.WellFormed) (hinv : form.Inv definition numbers)
    (h : form.insertArrayItemBefore binding before = (form', r)) :
    (form' = form ∧ ∃ e, r = .error e) ∨ form.ItemsEdited numbers form' := by
  refine (insertArrayItemBefore_cases h).imp_right ?_
  rintro ⟨index, array, position, values, formData, hp, _, hv, hw, rfl⟩
  obtain ⟨hat, rfl⟩ := hw.at
  have ha := List.mem_of_getElem? hat
  have hlen := (hinv.items_coherent ha hv).length_eq
  exact insert_edited hinv (.inl hv) (hlen ▸ (findIdx?_lt hp).le) (template_seed_wf hd hinv ha) hw

theorem removeArrayItem_refused {identity : Nat} {e : EditError}
    (h : form.removeArrayItem binding identity = (form', .error e)) : form' = form := by
  rcases removeArrayItem_cases h with ⟨heq, _⟩ | ⟨_, _, _, _, _, _, hok, _⟩
  · exact heq
  · cases hok

theorem removeArrayItem_edited {identity : Nat} {r : Except EditError RemovedArrayItem}
    (hinv : form.Inv definition numbers) (h : form.removeArrayItem binding identity = (form', r)) :
    (form' = form ∧ ∃ e, r = .error e) ∨ form.ItemsEdited numbers form' := by
  refine (removeArrayItem_cases h).imp_right ?_
  rintro ⟨index, array, position, values, formData, hp, _, hv, hw, rfl⟩
  obtain ⟨hat, rfl⟩ := hw.at
  have hco := hinv.items_coherent (List.mem_of_getElem? hat) hv
  have hlt : position < values.length := hco.length_eq ▸ findIdx?_lt hp
  refine erase_edited hinv hv (List.eraseIdx_sublist _ _) ?_ (List.eraseIdx_sublist _ _)
    (forall₂_eraseIdx hco position) hw
  rw [List.length_eraseIdx_of_lt hlt]
  omega

theorem moveArrayItem_refused {direction : ArrayMove} {identity : Nat} {e : EditError}
    (h : moveArrayItem direction form binding identity = (form', .error e)) : form' = form := by
  rcases moveArrayItem_cases h with ⟨heq, _⟩ | ⟨_, _, _, _, _, _, _, _, _, _, _, _, hok, _⟩
  · exact heq
  · cases hok

theorem moveArrayItem_edited {direction : ArrayMove} {identity : Nat}
    {r : Except EditError MovedArrayItem} (hinv : form.Inv definition numbers)
    (h : moveArrayItem direction form binding identity = (form', r)) :
    (form' = form ∧ ∃ e, r = .error e) ∨ form.ItemsEdited numbers form' := by
  refine (moveArrayItem_cases h).imp_right ?_
  rintro ⟨index, array, source, destination, values, formData, displaced, dataChanged, hs, hdest, _,
    hdc, _, hv, hw, rfl⟩
  obtain ⟨hat, rfl⟩ := hw.at
  have ha := List.mem_of_getElem? hat
  have hco := hinv.items_coherent ha hv
  have hlt := findIdx?_lt hs
  have hlt' := (moveDestination_lt hlt hdest).1
  rw [hco.length_eq] at hlt hlt'
  have hperm := swap_perm array.items source destination
  have hwf : ∀ v ∈ swap values source destination, v.WF := fun v h =>
    hinv.values_wf hv v ((swap_perm values source destination).subset h)
  have hdc' : jsonValuesEqual (.array values) (.array (swap values source destination)) =
      !dataChanged := by
    rw [hdc, swap_equal_iff hlt hlt' (hinv.values_wf hv)]
    simp [List.getD_eq_getElem?_getD, hlt, hlt']
  refine ⟨_, index, array, _, _, _, formData, dataChanged, hw, hwf,
    forall₂_swap hco source destination,
    (hperm.map _).nodup_iff.mpr (hinv.identities_nodup array ha), fun _ h => .inl (hperm.subset h),
    ?_, rfl⟩
  cases hdata : dataChanged with
  | true =>
    refine hw.not_equal hinv hwf ?_
    rw [hv]
    intro hsame
    cases hsame with
    | some heq => rw [hdc', hdata] at heq; cases heq
  | false =>
    refine hw.equal hinv.formData_wf values hv ?_
    rw [hdc', hdata]
    rfl

theorem toggleArrayChoice_edited {value : Value} {r : Except EditError ToggledArrayChoice}
    (hd : definition.WellFormed) (hinv : form.Inv definition numbers)
    (h : form.toggleArrayChoice binding value = (form', r)) :
    (form' = form ∧ ∃ e, r = .error e) ∨ form.ItemsEdited numbers form' := by
  refine (toggleArrayChoice_cases h).imp_right ?_
  rintro ⟨index, array, option, values, formData₀, formData, hmc, ho, hc, hcases⟩
  rcases hcases with ⟨position, hp, _, hw, rfl⟩ | ⟨first, rest, hfr, _, hw, rfl⟩
  · obtain ⟨hat, rfl⟩ := hw.at
    exact insert_edited hinv hc.present hp
      (mem_choices_wf hd (hinv.shaped.array_mem (List.mem_of_getElem? hat)) ho) hw
  · obtain ⟨hat, rfl⟩ := hw.at
    rcases hc.present with hv | ⟨_, rfl⟩
    · have hco := hinv.items_coherent (List.mem_of_getElem? hat) hv
      refine erase_edited hinv hv (eraseIndices_sublist _ _) ?_ (eraseIndices_sublist _ _)
        (forall₂_eraseIndices hco _) hw
      exact length_eraseIndices_lt (by simp [hfr]) carrying_lt
    · cases hfr

end Edited

end Form

end Schemaform.Engine
