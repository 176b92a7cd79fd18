import Schemaform.Engine.Coherent
import Schemaform.Lib.IdentityPool

/-!
# Engine.Invariant

What every state of a form satisfies, and how a single control or array is found in it.

* `Form.Inv`: the states carry the compiled definitions, data are well-formed objects, buffers and
  items are coherent, identities form a well-formed pool.
* `controlLocation_at`, `array_at`: what a lookup by binding returns.
* `boundControls_modifyControl`: editing one control leaves every other at its place, apart from it.
-/

namespace Schemaform.Engine

open ListEdit

namespace Form

def pool (form : Form) : IdentityPool where
  current := (form.arrays.map (·.identities)).flatten
  saved := form.baselineArrayIdentities.flatten
  next := form.nextItemIdentity

/-- The states of controls and items carry the definitions they were compiled with. -/
structure Shaped (definition : FormDefinition) (form : Form) : Prop where
  controls : form.controls.map (·.definition) = definition.controls
  arrays : form.arrays.map (·.definition) = definition.arrays
  items : ∀ a ∈ form.arrays, ∀ item ∈ a.items,
    item.controls.map (·.definition) = a.definition.itemTemplate.controls

structure Inv (definition : FormDefinition) (numbers : NumberInput) (form : Form) : Prop where
  shaped : form.Shaped definition
  formData_wf : form.formData.WF
  formData_isObject : form.formData.isObject = true
  baseline_wf : form.baseline.WF
  baseline_isObject : form.baseline.isObject = true
  coherent : form.Coherent numbers
  baselineItems : List.Forall₂ (fun (a : ArrayDefinition) (ids : List Nat) =>
    ids.length = (arrayValues a.binding form.baseline).length) definition.arrays
    form.baselineArrayIdentities
  pool : form.pool.WellFormed
  batches : form.externalFindingBatches = []

/-! ## Lookups -/

/-- The control state at a location, and the pointer it is bound to. -/
def At (form : Form) (binding : Pointer) (control : ControlState) : ControlLocation → Prop
  | .static i => form.controls[i]? = some control ∧ control.definition.binding = binding
  | .arrayItem a i k => ∃ array item, form.arrays[a]? = some array ∧ array.items[i]? = some item ∧
      item.controls[k]? = some control ∧
      arrayItemPointer array.definition.binding i ++ control.definition.binding = binding

theorem controlState_of_at {form : Form} {binding : Pointer} {control : ControlState}
    {location : ControlLocation} (h : form.At binding control location) :
    form.controlState location = some control := by
  cases location with
  | static i => exact h.1
  | arrayItem a i k =>
    obtain ⟨array, item, ha, hi, hc, _⟩ := h
    simp only [controlState, ha, hi, Option.bind_eq_bind, Option.bind_some, hc]

theorem findIdx?_some {α : Type} {p : α → Bool} {l : List α} {i : Nat} (h : l.findIdx? p = some i) :
    ∃ a, l[i]? = some a ∧ p a = true := by
  obtain ⟨hlt, hp, _⟩ := List.findIdx?_eq_some_iff_getElem.mp h
  exact ⟨l[i], List.getElem?_eq_getElem hlt, hp⟩

theorem findItemControl_some {binding : Pointer} {array : ArrayState} {i k : Nat}
    (h : findItemControl binding array = some (i, k)) : ∃ item control,
      array.items[i]? = some item ∧ item.controls[k]? = some control ∧
      arrayItemPointer array.definition.binding i ++ control.definition.binding = binding := by
  obtain ⟨⟨item, index⟩, hmem, hfind⟩ := List.exists_of_findSome?_eq_some h
  obtain ⟨k', hk, he⟩ := Option.map_eq_some_iff.mp hfind
  cases he
  obtain ⟨control, hc, hb⟩ := findIdx?_some hk
  exact ⟨item, control, List.mem_zipIdx_iff_getElem?.mp hmem, hc, by simpa using hb⟩

theorem controlLocation_at {form : Form} {binding : Pointer} {location : ControlLocation}
    (h : form.controlLocation binding = some location) :
    ∃ control, form.At binding control location := by
  unfold controlLocation at h
  split at h
  · rename_i index hi
    cases h
    obtain ⟨control, hc, hb⟩ := findIdx?_some hi
    exact ⟨control, hc, by simpa using hb⟩
  · obtain ⟨⟨array, index⟩, hmem, hfind⟩ := List.exists_of_findSome?_eq_some h
    obtain ⟨⟨i, k⟩, hik, rfl⟩ := Option.map_eq_some_iff.mp hfind
    obtain ⟨item, control, hi, hc, hb⟩ := findItemControl_some hik
    exact ⟨control, array, item, List.mem_zipIdx_iff_getElem?.mp hmem, hi, hc, hb⟩

theorem mem_boundControls_of_at {form : Form} {binding : Pointer} {control : ControlState}
    {location : ControlLocation} (h : form.At binding control location) :
    (binding, control) ∈ form.boundControls := by
  cases location with
  | static i => exact mem_boundControls.mpr (.inl ⟨List.mem_of_getElem? h.1, h.2.symm⟩)
  | arrayItem a i k =>
    obtain ⟨array, item, ha, hi, hc, hb⟩ := h
    exact mem_boundControls.mpr (.inr ⟨array, List.mem_of_getElem? ha, i, item, hi,
      List.mem_of_getElem? hc, hb.symm⟩)

theorem array_at {form : Form} {binding : Pointer} {array : ArrayState} {index : Nat}
    (hi : form.arrayIndex binding = some index) (ha : form.array binding = some array) :
    form.arrays[index]? = some array ∧ array.definition.binding = binding := by
  obtain ⟨hlt, hp, hmin⟩ := List.findIdx?_eq_some_iff_getElem.mp hi
  obtain ⟨hpa, j, hj, rfl, hmin'⟩ := List.find?_eq_some_iff_getElem.mp ha
  have hij : index = j := by
    rcases Nat.lt_trichotomy index j with h | h | h
    · exact absurd hp (by simpa using hmin' index h)
    · exact h
    · exact absurd hpa (by simpa using hmin j h)
  subst hij
  exact ⟨List.getElem?_eq_getElem hlt, by simpa using hpa⟩

theorem array_mem {form : Form} {binding : Pointer} {array : ArrayState}
    (ha : form.array binding = some array) :
    array ∈ form.arrays ∧ array.definition.binding = binding :=
  ⟨List.mem_of_find?_eq_some ha, by simpa using List.find?_some ha⟩

end Form

/-! ## Leaves are apart -/

section Apart

variable {definition : FormDefinition} {form : Form}

theorem FormDefinition.WellFormed.controls_apart (hd : definition.WellFormed) :
    (definition.controls.map (·.binding)).Pairwise Pointer.Apart :=
  (List.pairwise_append.mp hd.leaves_apart).1

theorem FormDefinition.WellFormed.arrays_apart (hd : definition.WellFormed) :
    (definition.arrays.map (·.binding)).Pairwise Pointer.Apart :=
  (List.pairwise_append.mp hd.leaves_apart).2.1

theorem FormDefinition.WellFormed.control_array_apart (hd : definition.WellFormed)
    {c : ControlDefinition} (hc : c ∈ definition.controls) {a : ArrayDefinition}
    (ha : a ∈ definition.arrays) : c.binding.Apart a.binding :=
  (List.pairwise_append.mp hd.leaves_apart).2.2 _ (List.mem_map_of_mem hc) _ (List.mem_map_of_mem ha)

namespace Form.Shaped

theorem control_mem (hs : form.Shaped definition) {c : ControlState} (hc : c ∈ form.controls) :
    c.definition ∈ definition.controls := hs.controls ▸ List.mem_map_of_mem hc

theorem array_mem (hs : form.Shaped definition) {a : ArrayState} (ha : a ∈ form.arrays) :
    a.definition ∈ definition.arrays := hs.arrays ▸ List.mem_map_of_mem ha

theorem item_mem (hs : form.Shaped definition) {a : ArrayState} (ha : a ∈ form.arrays)
    {item : ArrayItemState} (hi : item ∈ a.items) {c : ControlState} (hc : c ∈ item.controls) :
    c.definition ∈ a.definition.itemTemplate.controls :=
  hs.items a ha item hi ▸ List.mem_map_of_mem hc

theorem controls_apart (hd : definition.WellFormed) (hs : form.Shaped definition) {i j : Nat}
    {c d : ControlState} (hi : form.controls[i]? = some c) (hj : form.controls[j]? = some d)
    (hij : i ≠ j) : c.definition.binding.Apart d.definition.binding := by
  have h := hd.controls_apart
  rw [← hs.controls, List.map_map] at h
  exact rel_of_pairwise (fun _ _ => Pointer.Apart.symm) h (getElem?_of_map hi) (getElem?_of_map hj)
    hij

theorem arrays_apart (hd : definition.WellFormed) (hs : form.Shaped definition) {i j : Nat}
    {a b : ArrayState} (hi : form.arrays[i]? = some a) (hj : form.arrays[j]? = some b)
    (hij : i ≠ j) : a.definition.binding.Apart b.definition.binding := by
  have h := hd.arrays_apart
  rw [← hs.arrays, List.map_map] at h
  exact rel_of_pairwise (fun _ _ => Pointer.Apart.symm) h (getElem?_of_map hi) (getElem?_of_map hj)
    hij

theorem control_array_apart (hd : definition.WellFormed) (hs : form.Shaped definition)
    {c : ControlState} (hc : c ∈ form.controls) {a : ArrayState} (ha : a ∈ form.arrays) :
    c.definition.binding.Apart a.definition.binding :=
  hd.control_array_apart (hs.control_mem hc) (hs.array_mem ha)

theorem item_controls_apart (hd : definition.WellFormed) (hs : form.Shaped definition)
    {a : ArrayState} (ha : a ∈ form.arrays) {item : ArrayItemState} (hi : item ∈ a.items)
    {j k : Nat} {c d : ControlState} (hj : item.controls[j]? = some c)
    (hk : item.controls[k]? = some d) (hjk : j ≠ k) :
    c.definition.binding.Apart d.definition.binding := by
  have h := (hd.template_wf _ (hs.array_mem ha)).controls_apart
  rw [← hs.items a ha item hi, List.map_map] at h
  exact rel_of_pairwise (fun _ _ => Pointer.Apart.symm) h (getElem?_of_map hj) (getElem?_of_map hk)
    hjk

end Form.Shaped

theorem apart_append_iff (x : Pointer) {p q : Pointer} :
    Pointer.Apart (x ++ p) (x ++ q) ↔ Pointer.Apart p q := by
  induction x with
  | nil => exact Iff.rfl
  | cons t x ih => exact Pointer.apart_cons.trans ih

theorem item_apart {a b : Pointer} (h : a.Apart b) (i j : Nat) (p q : Pointer) :
    Pointer.Apart (arrayItemPointer a i ++ p) (arrayItemPointer b j ++ q) := by
  rw [arrayItemPointer, arrayItemPointer, List.append_assoc, List.append_assoc]
  exact ((h.append_left _).symm.append_left _).symm

/-- Two bound control states stand apart unless they are the same one. -/
theorem Form.Shaped.bound_apart (hd : definition.WellFormed) (hs : form.Shaped definition)
    {p : Pointer} {c : ControlState} {location : ControlLocation} (hat : form.At p c location)
    {q : Pointer} {d : ControlState} {location' : ControlLocation} (hat' : form.At q d location')
    (hne : location ≠ location') : p.Apart q := by
  cases location with
  | static i =>
    obtain ⟨hi, rfl⟩ := hat
    cases location' with
    | static j =>
      obtain ⟨hj, rfl⟩ := hat'
      exact hs.controls_apart hd hi hj (fun h => hne (by rw [h]))
    | arrayItem b j k =>
      obtain ⟨array, item, hb, _, _, rfl⟩ := hat'
      rw [arrayItemPointer, List.append_assoc]
      exact ((hs.control_array_apart hd (List.mem_of_getElem? hi)
        (List.mem_of_getElem? hb)).symm.append_left _).symm
  | arrayItem a i k =>
    obtain ⟨array, item, ha, hi, hk, rfl⟩ := hat
    cases location' with
    | static j =>
      obtain ⟨hj, rfl⟩ := hat'
      rw [arrayItemPointer, List.append_assoc]
      exact (hs.control_array_apart hd (List.mem_of_getElem? hj)
        (List.mem_of_getElem? ha)).symm.append_left _
    | arrayItem b j l =>
      obtain ⟨array', item', hb, hj, hl, rfl⟩ := hat'
      by_cases hab : a = b
      · subst hab
        obtain rfl := Option.some.inj (ha.symm.trans hb)
        by_cases hij : i = j
        · subst hij
          obtain rfl := Option.some.inj (hi.symm.trans hj)
          refine (apart_append_iff _).mpr (hs.item_controls_apart hd (List.mem_of_getElem? ha)
            (List.mem_of_getElem? hi) hk hl fun h => hne (by rw [h]))
        · exact arrayItemPointer_apart _ hij _ _
      · exact item_apart (hs.arrays_apart hd ha hb hab) _ _ _ _

end Apart

/-! ## Editing one control -/

namespace Form

theorem exists_at {form : Form} {q : Pointer} {c : ControlState}
    (h : (q, c) ∈ form.boundControls) : ∃ location, form.At q c location := by
  rcases mem_boundControls.mp h with ⟨hc, rfl⟩ | ⟨a, ha, i, item, hi, hc, rfl⟩
  · obtain ⟨i, hi⟩ := List.mem_iff_getElem?.mp hc
    exact ⟨.static i, hi, rfl⟩
  · obtain ⟨j, hj⟩ := List.mem_iff_getElem?.mp ha
    obtain ⟨k, hk⟩ := List.mem_iff_getElem?.mp hc
    exact ⟨.arrayItem j i k, a, item, hj, hi, hk, rfl⟩

theorem getElem?_modify_some {α : Type} {f : α → α} {l : List α} {i j : Nat} {a : α}
    (h : (l.modify i f)[j]? = some a) : ∃ b, l[j]? = some b ∧ a = if i = j then f b else b := by
  rw [List.getElem?_modify, Option.map_eq_map, Option.map_eq_some_iff] at h
  obtain ⟨b, hb, hab⟩ := h
  exact ⟨b, hb, hab.symm⟩

/-- After an edit of one control, what stands at a location stood there before, edited if it is
that control. -/
theorem at_modifyControl {form : Form} {edit : ControlState → ControlState}
    (he : ∀ c, (edit c).definition = c.definition) {location location' : ControlLocation}
    {q : Pointer} {c' : ControlState} (h : (form.modifyControl edit location).At q c' location') :
    ∃ c, form.At q c location' ∧ c' = if location = location' then edit c else c := by
  cases location with
  | static i =>
    cases location' with
    | static j =>
      obtain ⟨hj, rfl⟩ := h
      obtain ⟨c, hc, rfl⟩ := getElem?_modify_some hj
      refine ⟨c, ⟨hc, ?_⟩, by simp⟩
      split
      · rw [he]
      · rfl
    | arrayItem b j l => exact ⟨c', h, by simp⟩
  | arrayItem a i k =>
    cases location' with
    | static j => exact ⟨c', h, by simp⟩
    | arrayItem b j l =>
      obtain ⟨array', item', hb, hj, hl, rfl⟩ := h
      obtain ⟨array, ha, rfl⟩ := getElem?_modify_some hb
      by_cases hab : a = b
      · subst hab
        simp only [if_pos] at hj ⊢
        obtain ⟨item, hi, rfl⟩ := getElem?_modify_some hj
        by_cases hij : i = j
        · subst hij
          simp only [if_pos] at hl
          obtain ⟨c, hc, rfl⟩ := getElem?_modify_some hl
          refine ⟨c, ⟨array, item, ha, hi, hc, ?_⟩, by simp⟩
          split
          · rw [he]
          · rfl
        · simp only [if_neg hij] at hl
          exact ⟨c', ⟨array, item, ha, hi, hl, rfl⟩, by simp [hij]⟩
      · simp only [if_neg hab] at hj ⊢
        exact ⟨c', ⟨array, item', ha, hj, hl, rfl⟩, by simp [hab]⟩

theorem modifyControl_shaped {definition : FormDefinition} {form : Form}
    (hs : form.Shaped definition) {edit : ControlState → ControlState}
    (he : ∀ c, (edit c).definition = c.definition) (location : ControlLocation) :
    (form.modifyControl edit location).Shaped definition := by
  cases location with
  | static i => exact ⟨(map_modify he i _).trans hs.controls, hs.arrays, hs.items⟩
  | arrayItem a i k =>
    refine ⟨hs.controls, ?_, fun b hb item hi => ?_⟩
    · rw [← hs.arrays]
      refine map_modify ?_ a form.arrays
      intro _; rfl
    · rcases mem_modify hb with ⟨array, ha, rfl⟩ | ⟨j, _, hj⟩
      · rcases mem_modify hi with ⟨item', hi', rfl⟩ | ⟨j, _, hj⟩
        · exact (map_modify he k _).trans
            (hs.items array (List.mem_of_getElem? ha) item' (List.mem_of_getElem? hi'))
        · exact hs.items array (List.mem_of_getElem? ha) item (List.mem_of_getElem? hj)
      · exact hs.items b (List.mem_of_getElem? hj) item hi

theorem modifyControl_pool (form : Form) (edit : ControlState → ControlState)
    (location : ControlLocation) : (form.modifyControl edit location).pool = form.pool := by
  cases location with
  | static i => rfl
  | arrayItem a i k =>
    have h : (form.modifyControl edit (.arrayItem a i k)).arrays.map ArrayState.identities =
        form.arrays.map ArrayState.identities := by
      refine map_modify ?_ a form.arrays
      intro array
      refine map_modify ?_ i array.items
      intro _; rfl
    simp only [pool, h]
    rfl

theorem modifyControl_arrays (form : Form) (edit : ControlState → ControlState)
    (location : ControlLocation) :
    (form.modifyControl edit location).arrays.map (fun a => (a.definition, a.items.length)) =
      form.arrays.map (fun a => (a.definition, a.items.length)) := by
  cases location with
  | static i => rfl
  | arrayItem a i k => exact map_modify (fun array => by simp) a form.arrays

/-! ## Writes and array lengths -/

theorem length_arrayValues (q : Pointer) (v : Value) : (arrayValues q v).length =
    (((Pointer.resolve q v).map Value.shape).bind Prod.snd).getD 0 := by
  unfold arrayValues
  cases Pointer.resolve q v with
  | none => rfl
  | some c => cases c <;> simp [Value.shape, Value.asArray]

/-- A write changes the number of items only of arrays at or below it. -/
theorem length_arrayValues_write {p q : Pointer} {new : Option Value} {v w : Value}
    (h : Write p new v w) (hq : q.startsWith p = false) :
    (arrayValues q w).length = (arrayValues q v).length := by
  rw [length_arrayValues, length_arrayValues]
  rcases Pointer.trichotomy p q with ⟨r, rfl⟩ | ⟨t, r, rfl⟩ | hpq
  · simp at hq
  · rw [h.above q t r rfl]
  · rw [h.apart q hpq]

theorem arrayValues_apart {p q : Pointer} {new : Option Value} {v w : Value}
    (h : Write p new v w) (hpq : p.Apart q) : arrayValues q w = arrayValues q v := by
  rw [arrayValues, arrayValues, h.apart q hpq]

section At

variable {definition : FormDefinition} {form : Form} {p : Pointer} {c : ControlState}
  {location : ControlLocation}

/-- No array is bound at or below a control. -/
theorem At.array_not_below (hd : definition.WellFormed) (hs : form.Shaped definition)
    (hat : form.At p c location) {a : ArrayState} (ha : a ∈ form.arrays) :
    a.definition.binding.startsWith p = false := by
  cases location with
  | static i =>
    obtain ⟨hi, rfl⟩ := hat
    exact (hs.control_array_apart hd (List.mem_of_getElem? hi) ha).2
  | arrayItem b i k =>
    obtain ⟨array, item, hb, _, _, rfl⟩ := hat
    obtain ⟨j, hj⟩ := List.mem_iff_getElem?.mp ha
    by_cases hbj : b = j
    · subst hbj
      obtain rfl := Option.some.inj (hb.symm.trans hj)
      refine Bool.eq_false_iff.mpr fun h => ?_
      obtain ⟨r, hr⟩ := Pointer.startsWith_iff.mp h
      have := congrArg List.length hr
      simp only [arrayItemPointer, List.length_append, List.length_cons, List.length_nil] at this
      omega
    · have hap := (hs.arrays_apart hd hb hj hbj).append_left (Nat.repr i :: c.definition.binding)
      rw [arrayItemPointer, List.append_assoc]
      exact hap.2

theorem At.ne_root (hd : definition.WellFormed) (hs : form.Shaped definition)
    (hat : form.At p c location) : p ≠ [] := by
  cases location with
  | static i =>
    obtain ⟨hi, rfl⟩ := hat
    exact hd.leaves_ne_root _ (List.mem_append_left _
      (List.mem_map_of_mem (hs.control_mem (List.mem_of_getElem? hi))))
  | arrayItem b i k =>
    obtain ⟨array, item, _, _, _, rfl⟩ := hat
    simp [arrayItemPointer]

theorem At.definition_choices (hd : definition.WellFormed) (hs : form.Shaped definition)
    (hat : form.At p c location) : ∀ v ∈ c.definition.choices, v.WF := by
  cases location with
  | static i => exact hd.choices_wf _ (hs.control_mem (List.mem_of_getElem? hat.1))
  | arrayItem b i k =>
    obtain ⟨array, item, hb, hi, hk, _⟩ := hat
    have ha := List.mem_of_getElem? hb
    exact (hd.template_wf _ (hs.array_mem ha)).choices_wf _
      (hs.item_mem ha (List.mem_of_getElem? hi) (List.mem_of_getElem? hk))

end At

/-! ## Keeping the invariant -/

theorem Inv.of_eq {definition : FormDefinition} {numbers : NumberInput} {form form' : Form}
    (h : form.Inv definition numbers) (hc : form'.controls = form.controls)
    (ha : form'.arrays = form.arrays) (hn : form'.nextItemIdentity = form.nextItemIdentity)
    (hbi : form'.baselineArrayIdentities = form.baselineArrayIdentities)
    (hb : form'.baseline = form.baseline) (hf : form'.formData = form.formData)
    (hx : form'.externalFindingBatches = []) : form'.Inv definition numbers := by
  refine ⟨⟨?_, ?_, ?_⟩, ?_, ?_, ?_, ?_, ⟨?_, ?_⟩, ?_, ?_, hx⟩
  · rw [hc]; exact h.shaped.controls
  · rw [ha]; exact h.shaped.arrays
  · rw [ha]; exact h.shaped.items
  · rw [hf]; exact h.formData_wf
  · rw [hf]; exact h.formData_isObject
  · rw [hb]; exact h.baseline_wf
  · rw [hb]; exact h.baseline_isObject
  · rw [hc, hf]; exact h.coherent.controls
  · rw [ha, hf]; exact h.coherent.arrays
  · rw [hb, hbi]; exact h.baselineItems
  · have hpool : form'.pool = form.pool := by simp only [Form.pool, ha, hbi, hn]
    rw [hpool]; exact h.pool

/-- Touching arrays keeps everything that speaks of definitions and items. -/
theorem Inv.of_items {definition : FormDefinition} {numbers : NumberInput} {form : Form}
    (h : form.Inv definition numbers) {arrays : List ArrayState}
    (ha : arrays.map (fun a => (a.definition, a.items)) =
      form.arrays.map fun a => (a.definition, a.items)) :
    { form with arrays }.Inv definition numbers := by
  have hmem : ∀ a ∈ arrays, ∃ b ∈ form.arrays, b.definition = a.definition ∧ b.items = a.items := by
    intro a hmem
    have := List.mem_map_of_mem (f := fun a : ArrayState => (a.definition, a.items)) hmem
    rw [ha] at this
    obtain ⟨b, hb, he⟩ := List.mem_map.mp this
    exact ⟨b, hb, congrArg Prod.fst he, congrArg Prod.snd he⟩
  have hmap {α : Type} (f : ArrayDefinition × List ArrayItemState → α) :
      arrays.map (fun a => f (a.definition, a.items)) =
        form.arrays.map fun a => f (a.definition, a.items) := by
    have := congrArg (List.map f) ha
    rwa [List.map_map, List.map_map] at this
  refine ⟨⟨h.shaped.controls, (hmap Prod.fst).trans h.shaped.arrays, fun a hmem' => ?_⟩,
    h.formData_wf, h.formData_isObject, h.baseline_wf, h.baseline_isObject,
    ⟨h.coherent.controls, fun a hmem' => ?_⟩, h.baselineItems, ?_, h.batches⟩
  · obtain ⟨b, hb, hd, hi⟩ := hmem a hmem'
    rw [← hd, ← hi]
    exact h.shaped.items b hb
  · obtain ⟨b, hb, hd, hi⟩ := hmem a hmem'
    rw [ArrayCoherent, ← hd, ← hi]
    exact h.coherent.arrays b hb
  · have hpool : { form with arrays }.pool = form.pool := by
      simp only [Form.pool, IdentityPool.mk.injEq, and_true]
      exact congrArg List.flatten (hmap fun a => a.2.map ArrayItemState.identity)
    rw [hpool]; exact h.pool

/-- Writing at one control and editing its state. -/
theorem Inv.writeControl {definition : FormDefinition} {numbers : NumberInput} {form : Form}
    (hd : definition.WellFormed) (h : form.Inv definition numbers) {p : Pointer} {c : ControlState}
    {location : ControlLocation} (hat : form.At p c location) {formData : Value}
    (hwf : formData.WF)
    (hw : formData = form.formData ∨ ∃ v, Write p (some v) form.formData formData)
    (edit : ControlState → ControlState) (he : ∀ c, (edit c).definition = c.definition)
    (hc : ControlCoherent numbers (Pointer.resolve p formData) (edit c)) :
    ({ form with formData }.modifyControl edit location).Inv definition numbers := by
  have hs := h.shaped
  have hfd : ({ form with formData }.modifyControl edit location).formData = formData :=
    modifyControl_formData _ edit location
  have hco := coherent_iff.mp h.coherent
  have hs' : { form with formData }.Shaped definition := ⟨hs.controls, hs.arrays, hs.items⟩
  refine ⟨modifyControl_shaped hs' he location, by rw [hfd]; exact hwf, ?_, ?_, ?_,
    coherent_iff.mpr ⟨?_, ?_⟩, ?_, ?_, ?_⟩
  · rw [hfd]
    rcases hw with rfl | ⟨v, hw⟩
    · exact h.formData_isObject
    · exact (hw.isObject (hat.ne_root hd hs)).trans h.formData_isObject
  · rw [modifyControl_baseline]; exact h.baseline_wf
  · rw [modifyControl_baseline]; exact h.baseline_isObject
  · rintro ⟨q, c'⟩ hmem
    obtain ⟨location', hat'⟩ := exists_at hmem
    obtain ⟨d, hd', rfl⟩ := at_modifyControl he hat'
    have hatd : form.At q d location' := by cases location' <;> exact hd'
    rw [hfd]
    by_cases hloc : location = location'
    · subst hloc
      have hcd : c = d :=
        Option.some.inj ((controlState_of_at hat).symm.trans (controlState_of_at hatd))
      have hpq : p = q := by
        subst hcd
        cases location with
        | static i => exact hat.2.symm.trans hatd.2
        | arrayItem a i k =>
          obtain ⟨array, _, ha, _, _, rfl⟩ := hat
          obtain ⟨array', _, ha', _, _, rfl⟩ := hatd
          rw [Option.some.inj (ha.symm.trans ha')]
      subst hcd hpq
      rw [if_pos rfl]
      exact hc
    · rw [if_neg hloc]
      have hold := hco.1 _ (mem_boundControls_of_at hatd)
      rcases hw with rfl | ⟨v, hw⟩
      · exact hold
      · rw [hw.apart q (hs.bound_apart hd hat hatd hloc)]
        exact hold
  · intro a ha
    have hmem : (a.definition, a.items.length) ∈
        form.arrays.map fun a => (a.definition, a.items.length) := by
      rw [← modifyControl_arrays { form with formData } edit location]
      exact List.mem_map_of_mem (f := fun a : ArrayState => (a.definition, a.items.length)) ha
    obtain ⟨b, hb, he⟩ := List.mem_map.mp hmem
    rw [Prod.mk.injEq] at he
    rw [hfd, ← he.1, ← he.2, hco.2 b hb]
    rcases hw with rfl | ⟨v, hw⟩
    · rfl
    · exact (length_arrayValues_write hw (hat.array_not_below hd hs hb)).symm
  · rw [modifyControl_baseline, modifyControl_baselineArrayIdentities]; exact h.baselineItems
  · rw [modifyControl_pool]; exact h.pool
  · rw [modifyControl_externalFindingBatches]; exact h.batches

end Form

end Schemaform.Engine
