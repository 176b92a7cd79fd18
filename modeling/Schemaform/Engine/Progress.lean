import Schemaform.Engine.ArraySpec
import Schemaform.Engine.StructureSpec

/-!
# Engine.Progress

When an edit goes through.

* `Writable`: a place that holds a value or can receive a member.
* `setBoundValue_isSome`, `takeBoundValue_iff`: the two writes of the engine.
* `controlLocation_of_at`: every bound control is found by its binding.
* One `_succeeds` lemma for each edit, from what is checked before it is made.
-/

namespace Schemaform

/-- The place holds a value, or its parent is an object that can receive one. -/
def Writable (p : Pointer) (v : Value) : Prop :=
  (Pointer.resolve p v).isSome = true ∨ bindingParentIsObject p v = true

theorem bindingParentIsObject_eq_true {p : Pointer} {v : Value} :
    bindingParentIsObject p v = true ↔ ∃ parent property members, p = parent ++ [property] ∧
      Pointer.resolve parent v = some (.object members) := by
  unfold bindingParentIsObject
  cases hp : p.splitBack with
  | none =>
    obtain rfl := Pointer.splitBack_eq_none.mp hp
    simp
  | some split =>
    obtain ⟨parent, property⟩ := split
    obtain rfl := Pointer.splitBack_eq_some.mp hp
    constructor
    · intro h
      obtain ⟨c, hc, hobject⟩ := (Option.any_eq_true _ _).mp h
      cases c with
      | object members => exact ⟨parent, property, members, rfl, hc⟩
      | _ => cases hobject
    · rintro ⟨parent', property', members, hsplit, hc⟩
      obtain ⟨rfl, _⟩ := List.append_inj' hsplit rfl
      simp [hc, Value.isObject]

theorem setBoundValue_isSome {p : Pointer} {v : Value} (h : Writable p v) (value : Value) :
    ∃ w, setBoundValue p value v = some w := by
  unfold setBoundValue
  cases hm : p.modify (fun _ => some value) v with
  | some w => exact ⟨w, rfl⟩
  | none =>
    rcases h with hsome | hparent
    · obtain ⟨c, hc⟩ := Option.isSome_iff_exists.mp hsome
      obtain ⟨w, hw⟩ := Pointer.modify_isSome (f := fun _ => some value) hc rfl
      rw [hw] at hm
      cases hm
    · obtain ⟨parent, property, members, rfl, hc⟩ := bindingParentIsObject_eq_true.mp hparent
      rw [Pointer.splitBack_eq_some.mpr rfl]
      exact Pointer.modify_isSome hc rfl

theorem takeBoundValue_iff {p : Pointer} {v : Value} : (∃ w, takeBoundValue p v = some w) ↔
    (Pointer.resolve p v).isSome = true ∧ bindingParentIsObject p v = true := by
  constructor
  · rintro ⟨w, hw⟩
    obtain ⟨parent, property, members, hp, hc, _⟩ := takeBoundValue_eq_some hw
    exact ⟨takeBoundValue_isSome hw, bindingParentIsObject_eq_true.mpr ⟨_, _, _, hp, hc⟩⟩
  · rintro ⟨hsome, hparent⟩
    obtain ⟨parent, property, members, rfl, hc⟩ := bindingParentIsObject_eq_true.mp hparent
    rw [Pointer.resolve_append, hc, Option.bind_some, Pointer.resolve_cons] at hsome
    obtain ⟨old, hold⟩ := Option.isSome_iff_exists.mp hsome
    obtain ⟨old', hold', _⟩ := Option.bind_eq_some_iff.mp hold
    rw [Value.child] at hold'
    have hremove : removeMember property (.object members) =
        some (.object (SortedMap.erase property members)) := by
      rw [removeMember, hold', Option.map_some]
    unfold takeBoundValue
    rw [Pointer.splitBack_eq_some.mpr rfl]
    exact Pointer.modify_isSome hc hremove

namespace Engine

open ListEdit (swap eraseIndices)

variable {definition : FormDefinition} {form : Form} {binding : Pointer}

/-! ## Controls -/

theorem Form.controlLocation_isSome {c : ControlState} {location : ControlLocation}
    (h : form.At binding c location) : (form.controlLocation binding).isSome = true := by
  cases hl : form.controlLocation binding with
  | some location => rfl
  | none =>
    unfold controlLocation at hl
    cases hs : form.controls.findIdx? (·.definition.binding == binding) with
    | some i => simp [hs] at hl
    | none =>
      rw [hs] at hl
      cases location with
      | static i =>
        have hne := List.findIdx?_eq_none_iff.mp hs c (List.mem_of_getElem? h.1)
        rw [h.2] at hne
        simp at hne
      | arrayItem a i k =>
        obtain ⟨array, item, ha, hi, hc, hb⟩ := h
        have hitem := List.findSome?_eq_none_iff.mp hl (array, a)
          (List.mem_zipIdx_iff_getElem?.mpr ha)
        have hcontrol := List.findSome?_eq_none_iff.mp (Option.map_eq_none_iff.mp hitem) (item, i)
          (List.mem_zipIdx_iff_getElem?.mpr hi)
        have hne := List.findIdx?_eq_none_iff.mp (Option.map_eq_none_iff.mp hcontrol) c
          (List.mem_of_getElem? hc)
        rw [hb] at hne
        simp at hne

/-- Every bound control is found by its binding. -/
theorem Form.controlLocation_of_at (hd : definition.WellFormed) (hs : form.Shaped definition)
    {c : ControlState} {location : ControlLocation} (h : form.At binding c location) :
    form.controlLocation binding = some location := by
  obtain ⟨found, hfound⟩ := Option.isSome_iff_exists.mp (controlLocation_isSome h)
  obtain ⟨c', hat⟩ := controlLocation_at hfound
  by_cases hl : location = found
  · rw [hl]
    exact hfound
  · have hself := (hs.bound_apart hd h hat hl).1
    simp at hself

theorem Form.control_of_at (hd : definition.WellFormed) (hs : form.Shaped definition)
    {c : ControlState} {location : ControlLocation} (h : form.At binding c location) :
    form.control binding = some c := by
  rw [control, controlLocation_of_at hd hs h, Option.bind_some, controlState_of_at h]

/-! ## Scalars -/

namespace Form

/-- What a text edit asks of the value that is there. -/
def TextReceives (form : Form) (binding : Pointer) (control : ControlDefinition) : Prop :=
  Writable binding form.formData ∧ ∀ current, Pointer.resolve binding form.formData = some current →
    controlValueIsCompatible control current = true

theorem parseText_of_textual {kind : ControlKind} (h : kind.textual = true) (input : String)
    (numbers : NumberInput) :
    ∃ parsed, parseText numbers.parser kind input numbers.maximumDigits = some parsed := by
  cases kind <;> first | exact ⟨_, rfl⟩ | cases h

theorem prepareTextEdit_succeeds {c : ControlState} {location : ControlLocation}
    (hl : form.controlLocation binding = some location)
    (hc : form.controlState location = some c) (ht : c.definition.kind.textual = true)
    (h : form.TextReceives binding c.definition) (input : String) (numbers : NumberInput) :
    ∃ edit, form.prepareTextEdit numbers.parser binding input numbers.maximumDigits = .ok edit := by
  obtain ⟨hw, hcurrent⟩ := h
  obtain ⟨parsed, hp⟩ := parseText_of_textual ht input numbers
  have hcompatible : (Pointer.resolve binding form.formData).any (fun v =>
      !v.isNull && !controlValueIsCompatible c.definition v) = false := by
    cases hv : Pointer.resolve binding form.formData with
    | none => rfl
    | some v => simp [hcurrent v hv]
  have hnull : ((Pointer.resolve binding form.formData).any Value.isNull &&
      !c.definition.acceptsNull) = false := by
    cases hv : Pointer.resolve binding form.formData with
    | none => rfl
    | some v =>
      have hcv := hcurrent v hv
      unfold controlValueIsCompatible at hcv
      cases hn : v.isNull with
      | false => simp [hn]
      | true => simp_all
  have hreached : ((Pointer.resolve binding form.formData).isNone &&
      !bindingParentIsObject binding form.formData) = false := by
    rcases hw with hsome | hparent
    · rw [Option.isNone_eq_false_iff.mpr hsome, Bool.false_and]
    · rw [hparent, Bool.not_true, Bool.and_false]
  simp only [prepareTextEdit, hl, hc, hp, hcompatible, hnull, hreached, Bool.false_eq_true, if_false]
  cases parsed with
  | ok value => exact ⟨_, rfl⟩
  | error blocker => exact ⟨_, rfl⟩

theorem editText_succeeds {input : String} {numbers : NumberInput} {edit : TextEdit}
    (hw : Writable binding form.formData)
    (h : form.prepareTextEdit numbers.parser binding input numbers.maximumDigits = .ok edit) :
    ∃ form', form.editTextWithIntegerDigitLimit numbers.parser binding input numbers.maximumDigits =
      (form', .ok ()) := by
  simp only [editTextWithIntegerDigitLimit, h]
  cases edit.replacement with
  | none => exact ⟨_, rfl⟩
  | some value =>
    obtain ⟨w, hset⟩ := setBoundValue_isSome hw value
    simp only [hset]
    exact ⟨_, rfl⟩

theorem prospectiveTextFormData_succeeds {input : String} {numbers : NumberInput} {edit : TextEdit}
    (hw : Writable binding form.formData)
    (h : form.prepareTextEdit numbers.parser binding input numbers.maximumDigits = .ok edit) :
    ∃ candidate, form.prospectiveTextFormData numbers.parser binding input numbers.maximumDigits =
      .ok candidate := by
  simp only [prospectiveTextFormData, h]
  cases hr : edit.replacement with
  | none => exact ⟨none, by simp [bind, Except.bind, hr, pure, Except.pure]⟩
  | some value =>
    obtain ⟨w, hset⟩ := setBoundValue_isSome hw value
    exact ⟨some w, by simp [bind, Except.bind, hr, hset, pure, Except.pure]⟩

theorem prospectiveEditBufferMetrics_succeeds {c : ControlState} (hc : form.control binding = some c)
    (input : String) : ∃ metrics, form.prospectiveEditBufferMetrics binding input = .ok metrics := by
  simp only [prospectiveEditBufferMetrics, hc]
  exact ⟨_, rfl⟩

theorem setValue_succeeds {c : ControlState} {location : ControlLocation} {value : Value}
    (hl : form.controlLocation binding = some location)
    (hc : form.controlState location = some c) (hw : Writable binding form.formData)
    (hv : controlValueIsCompatible c.definition value = true) :
    ∃ form', form.setValue binding value = (form', .ok ()) := by
  simp only [setValue, hl, hc, hv, Bool.not_true, Bool.false_eq_true, if_false]
  obtain ⟨w, hset⟩ := setBoundValue_isSome hw (canonicalChoice c.definition value)
  simp only [hset]
  split
  · exact ⟨_, rfl⟩
  · exact ⟨_, rfl⟩

/-! ## Structures -/

theorem materializeStructure_succeeds {seed : Value}
    (hnone : Pointer.resolve binding form.formData = none)
    (hparent : bindingParentIsObject binding form.formData = true)
    (hseed : seed.isObject = true ∨ seed.isArray = true) :
    ∃ form', form.materializeStructure binding seed = (form', .ok ()) := by
  obtain ⟨w, hset⟩ := setBoundValue_isSome (.inr hparent) seed
  have hshape : (!(seed.isObject || seed.isArray)) = false := by
    rcases hseed with h | h <;> simp [h]
  simp only [materializeStructure, hnone, hshape, hset]
  exact ⟨_, rfl⟩

theorem replaceStructure_succeeds {value current : Value}
    (hcurrent : Pointer.resolve binding form.formData = some current)
    (h : replaceable (form.isMultipleChoiceAt binding) value current = true) :
    ∃ form', form.replaceStructure binding value = (form', .ok ()) := by
  have hw : Writable binding form.formData := .inl (by rw [hcurrent]; rfl)
  obtain ⟨w, hset⟩ := setBoundValue_isSome hw value
  have hshape : (!(value.isObject || value.isArray)) = false := by
    unfold replaceable at h
    cases hv : value.isObject with
    | true => rfl
    | false =>
      rw [hv, Bool.false_and, Bool.false_or, Bool.and_eq_true] at h
      rw [h.1]
      rfl
  simp only [replaceStructure, hshape, hcurrent, Option.any_some, h, hset, Bool.not_true,
    Bool.or_self, Bool.false_eq_true, if_false]
  exact ⟨_, rfl⟩

/-- A removal goes through exactly when the value is a member of an object. -/
theorem removeValue_iff : (∃ form', form.removeValue binding = (form', .ok ())) ↔
    (Pointer.resolve binding form.formData).isSome = true ∧
      bindingParentIsObject binding form.formData = true := by
  rw [← takeBoundValue_iff]
  unfold removeValue
  cases takeBoundValue binding form.formData with
  | none => simp
  | some w => exact ⟨fun _ => ⟨w, rfl⟩, fun _ => ⟨_, rfl⟩⟩

theorem removeValue_error (h : bindingParentIsObject binding form.formData = false) :
    form.removeValue binding = (form, .error (.unresolvedControl binding)) := by
  unfold removeValue
  cases ht : takeBoundValue binding form.formData with
  | none => rfl
  | some w =>
    have hparent := (takeBoundValue_iff.mp ⟨w, ht⟩).2
    rw [h] at hparent
    cases hparent

/-! ## Array items -/

/-- A compiled array that is there. -/
structure Present (form : Form) (binding : Pointer) (index : Nat) (array : ArrayState)
    (values : List Value) : Prop where
  index_eq : form.arrayIndex binding = some index
  array_eq : form.array binding = some array
  resolves : Pointer.resolve binding form.formData = some (.array values)

theorem arrayIndex_isSome {array : ArrayState} (h : form.array binding = some array) :
    ∃ index, form.arrayIndex binding = some index := by
  cases hi : form.arrayIndex binding with
  | some index => exact ⟨index, rfl⟩
  | none =>
    obtain ⟨hmem, hb⟩ := array_mem h
    have hne := List.findIdx?_eq_none_iff.mp hi array hmem
    simp [hb] at hne

theorem presentArray_eq_some {array : ArrayState} {values : List Value}
    (h : form.presentArray binding = some (array, values)) :
    ∃ index, form.Present binding index array values := by
  simp only [presentArray, Option.bind_eq_bind, Option.bind_eq_some_iff, Option.pure_def,
    Option.some.injEq, Prod.mk.injEq] at h
  obtain ⟨array', ha, values', ⟨value, hv, harray⟩, rfl, rfl⟩ := h
  obtain ⟨index, hi⟩ := arrayIndex_isSome ha
  rw [(array_mem ha).2] at hv
  refine ⟨index, hi, ha, ?_⟩
  cases value with
  | array items =>
    cases harray
    exact hv
  | _ => cases harray

theorem present_of_gate {gate : ArrayState × List Value → Bool}
    (h : (form.presentArray binding).any gate = true) :
    ∃ index array values, form.Present binding index array values := by
  obtain ⟨⟨array, values⟩, hp, _⟩ := (Option.any_eq_true _ _).mp h
  obtain ⟨index, hpresent⟩ := presentArray_eq_some hp
  exact ⟨index, array, values, hpresent⟩

section Present

variable {index : Nat} {array : ArrayState} {values : List Value}

theorem Present.modify (h : form.Present binding index array values)
    (edit : List Value → List Value) :
    ∃ w, Pointer.modify (editItems edit) array.definition.binding form.formData = some w := by
  rw [(array_mem h.array_eq).2]
  exact Pointer.modify_isSome h.resolves rfl

theorem appendArrayItem_succeeds (hgate : form.arrayCanAppend binding = true) :
    ∃ form' item, form.appendArrayItem binding = (form', .ok item) := by
  obtain ⟨index, array, values, h⟩ := present_of_gate hgate
  obtain ⟨w, hw⟩ := h.modify fun values => values ++ [array.definition.itemTemplate.creationSeed]
  simp only [appendArrayItem, hgate, Bool.not_true, Bool.false_eq_true, if_false, h.index_eq,
    h.array_eq, hw]
  exact ⟨_, _, rfl⟩

theorem Present.insertItemAt (h : form.Present binding index array values) (position : Nat)
    (seed : Value) : ∃ form', form.insertItemAt index array position seed = some form' := by
  obtain ⟨w, hw⟩ := h.modify fun values => values.insertIdx position seed
  simp only [Form.insertItemAt, hw]
  exact ⟨_, rfl⟩

theorem findIdx?_of_identity (h : form.array binding = some array) {ids : List Nat}
    (hids : form.arrayItemIdentities binding = some ids) {identity : Nat} (hmem : identity ∈ ids) :
    ∃ i, array.items.findIdx? (·.identity == identity) = some i := by
  rw [arrayItemIdentities, h, Option.map_some, Option.some.injEq] at hids
  subst hids
  obtain ⟨item, hitem, rfl⟩ := List.mem_map.mp hmem
  cases hi : array.items.findIdx? (·.identity == item.identity) with
  | some i => exact ⟨i, rfl⟩
  | none =>
    have hne := List.findIdx?_eq_none_iff.mp hi item hitem
    simp at hne

theorem insertArrayItemBefore_succeeds (hgate : form.arrayCanAppend binding = true)
    {ids : List Nat} (hids : form.arrayItemIdentities binding = some ids) {before : Nat}
    (hbefore : before ∈ ids) :
    ∃ form' inserted, form.insertArrayItemBefore binding before = (form', .ok inserted) := by
  obtain ⟨index, array, values, h⟩ := present_of_gate hgate
  obtain ⟨i, hi⟩ := findIdx?_of_identity h.array_eq hids hbefore
  obtain ⟨form', hinsert⟩ := h.insertItemAt i array.definition.itemTemplate.creationSeed
  simp only [insertArrayItemBefore, hgate, Bool.not_true, Bool.false_eq_true, if_false, h.index_eq,
    h.array_eq, hi, hinsert]
  exact ⟨_, _, rfl⟩

theorem removeArrayItem_succeeds (hgate : form.arrayCanRemove binding = true) {ids : List Nat}
    (hids : form.arrayItemIdentities binding = some ids) {identity : Nat} (hmem : identity ∈ ids) :
    ∃ form' removed, form.removeArrayItem binding identity = (form', .ok removed) := by
  obtain ⟨index, array, values, h⟩ := present_of_gate hgate
  obtain ⟨i, hi⟩ := findIdx?_of_identity h.array_eq hids hmem
  obtain ⟨w, hw⟩ := h.modify fun values => values.eraseIdx i
  simp only [removeArrayItem, hgate, Bool.not_true, Bool.false_eq_true, if_false, h.index_eq,
    h.array_eq, hi, hw]
  exact ⟨_, _, rfl⟩

/-- The first item does not move up, the last not down. -/
theorem moveArrayItem_succeeds {direction : ArrayMove} (hgate : form.arrayCanMove binding = true)
    {ids : List Nat} (hids : form.arrayItemIdentities binding = some ids) {identity i : Nat}
    (hi : ids.findIdx? (· == identity) = some i)
    (hdestination : (moveDestination direction i ids.length).isSome = true) :
    ∃ form' moved, moveArrayItem direction form binding identity = (form', .ok moved) := by
  obtain ⟨index, array, values, h⟩ := present_of_gate hgate
  obtain ⟨destination, hd⟩ := Option.isSome_iff_exists.mp hdestination
  rw [arrayItemIdentities, h.array_eq, Option.map_some, Option.some.injEq] at hids
  subst hids
  rw [ArrayState.identities, List.findIdx?_map] at hi
  rw [ArrayState.identities, List.length_map] at hd
  have hi' : array.items.findIdx? (·.identity == identity) = some i := hi
  obtain ⟨w, hw⟩ := h.modify fun values => swap values i destination
  have hv : (Pointer.resolve array.definition.binding form.formData).bind Value.asArray =
      some values := by
    rw [(array_mem h.array_eq).2, h.resolves]
    rfl
  simp only [moveArrayItem, h.index_eq, h.array_eq, hi', hd, hv, hw]
  exact ⟨_, _, rfl⟩

theorem toggleArrayChoice_succeeds (hgate : form.arrayCanToggleChoice binding = true)
    (ha : form.array binding = some array) {value : Value}
    (hoption : ∃ option ∈ array.definition.choices, jsonValuesEqual option value = true) :
    ∃ form' toggled, form.toggleArrayChoice binding value = (form', .ok toggled) := by
  obtain ⟨index, hi⟩ := arrayIndex_isSome ha
  obtain ⟨option, hmem, heq⟩ := hoption
  have hb := (array_mem ha).2
  obtain ⟨i, hfound⟩ : ∃ i, array.definition.choices.findIdx? (jsonValuesEqual · value) = some i := by
    cases hf : array.definition.choices.findIdx? (jsonValuesEqual · value) with
    | some i => exact ⟨i, rfl⟩
    | none =>
      have hne := List.findIdx?_eq_none_iff.mp hf option hmem
      rw [heq] at hne
      cases hne
  -- an absent array is created below a present object
  obtain ⟨formData, hformData⟩ : ∃ formData,
      (if (Pointer.resolve binding form.formData).isNone then
        setBoundValue binding (.array []) form.formData else some form.formData) = some formData := by
    cases hv : Pointer.resolve binding form.formData with
    | some v => exact ⟨_, rfl⟩
    | none =>
      have hparent : bindingParentIsObject binding form.formData = true := by
        obtain ⟨array', hfilter, hgate⟩ := (Option.any_eq_true _ _).mp hgate
        obtain ⟨ha', _⟩ := Option.filter_eq_some_iff.mp hfilter
        rw [(array_mem ha').2, hv] at hgate
        exact hgate
      exact setBoundValue_isSome (.inr hparent) (.array [])
  obtain ⟨_, hresolves, _⟩ := created_of_gate hgate hformData
  have hpresent : ({ form with formData } : Form).Present binding index array
      (arrayValues binding form.formData) := ⟨hi, ha, hresolves⟩
  simp only [toggleArrayChoice, hgate, Bool.not_true, Bool.false_eq_true, if_false, hi, ha, hfound,
    hb, hformData]
  split
  · obtain ⟨form', hinsert⟩ := hpresent.insertItemAt (choiceInsertPosition array.definition.choices
      (((Pointer.resolve binding form.formData).bind Value.asArray).getD []) i)
      (array.definition.choices.getD i value)
    simp only [hinsert]
    exact ⟨_, _, rfl⟩
  · obtain ⟨w, hw⟩ := hpresent.modify fun values => eraseIndices values
      (carrying (((Pointer.resolve binding form.formData).bind Value.asArray).getD [])
        (array.definition.choices.getD i value))
    rw [hb] at hw
    simp only [hw]
    exact ⟨_, _, rfl⟩

end Present

end Form

end Engine

end Schemaform
