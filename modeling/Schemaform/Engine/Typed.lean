import Schemaform.Engine.HostSpec

/-!
# Engine.Typed

Where edit state comes from: an operation keeps it, moves it with its item or drops it, and only
typing makes it.

* `EditsFrom`: every control with edit state had it before, under the same owner.
* One `_from` lemma for each operation but `editText`, and `editText_typed` for that one.
-/

namespace Schemaform.Engine

/-- The same control, with edit state only if it had some. -/
def ControlState.FadesTo (c c' : ControlState) : Prop :=
  c'.definition = c.definition ∧ (c'.hasEditState = true → c.hasEditState = true)

namespace ControlState

variable (c : ControlState)

theorem fadesTo_refl : c.FadesTo c := ⟨rfl, fun h => h⟩

theorem fadesTo_clearEditState : c.FadesTo c.clearEditState := ⟨rfl, nofun⟩

theorem fadesTo_clearLifecycleState : c.FadesTo c.clearLifecycleState := ⟨rfl, nofun⟩

theorem fadesTo_finalizeEditBuffer : c.FadesTo c.finalizeEditBuffer := by
  unfold finalizeEditBuffer
  split
  · rename_i hp
    refine ⟨rfl, fun h => ?_⟩
    simp only [hasEditState, Option.isSome_none, Bool.false_or] at h
    rw [Option.isNone_iff_eq_none.mp hp] at h
    cases h
  · exact c.fadesTo_refl

theorem fadesTo_touchControl : c.FadesTo (Form.touchControl c) :=
  ⟨(fadesTo_finalizeEditBuffer c).1, (fadesTo_finalizeEditBuffer c).2⟩

theorem fadesTo_clearControlBelow (binding q : Pointer) :
    c.FadesTo (Form.clearControlBelow binding q c) := by
  unfold Form.clearControlBelow
  split
  · exact c.fadesTo_clearEditState
  · exact c.fadesTo_refl

theorem fadesTo_clearWritten (writes : List Pointer) : c.FadesTo (Form.clearWritten writes c) := by
  unfold Form.clearWritten
  split
  · exact c.fadesTo_clearEditState
  · exact c.fadesTo_refl

end ControlState

namespace Form

open ListEdit

/-- Edit state is where it was: with a static control, or with a control of an item that was an
item of the same array. -/
structure EditsFrom (form form' : Form) : Prop where
  controls : ∀ c' ∈ form'.controls, ∃ c ∈ form.controls, c.FadesTo c'
  items : ∀ a' ∈ form'.arrays, ∀ item' ∈ a'.items,
    (∀ c' ∈ item'.controls, c'.hasEditState = false) ∨
    ∃ a ∈ form.arrays, a.definition = a'.definition ∧ ∃ item ∈ a.items,
      ∀ c' ∈ item'.controls, ∃ c ∈ item.controls, c.FadesTo c'

variable {form form' form'' : Form}

theorem EditsFrom.trans (h : form.EditsFrom form') (h' : form'.EditsFrom form'') :
    form.EditsFrom form'' where
  controls := by
    intro c'' hc''
    obtain ⟨c', hc', hf'⟩ := h'.controls c'' hc''
    obtain ⟨c, hc, hf⟩ := h.controls c' hc'
    exact ⟨c, hc, hf'.1.trans hf.1, fun he => hf.2 (hf'.2 he)⟩
  items := by
    intro a'' ha'' item'' hitem''
    rcases h'.items a'' ha'' item'' hitem'' with hclear | ⟨a', ha', hd', item', hitem', hcs'⟩
    · exact .inl hclear
    rcases h.items a' ha' item' hitem' with hclear | ⟨a, ha, hd, item, hitem, hcs⟩
    · refine .inl fun c'' hc'' => ?_
      obtain ⟨c', hc', hf'⟩ := hcs' c'' hc''
      exact Bool.eq_false_iff.mpr fun he => Bool.eq_false_iff.mp (hclear c' hc') (hf'.2 he)
    · refine .inr ⟨a, ha, hd.trans hd', item, hitem, fun c'' hc'' => ?_⟩
      obtain ⟨c', hc', hf'⟩ := hcs' c'' hc''
      obtain ⟨c, hc, hf⟩ := hcs c' hc'
      exact ⟨c, hc, hf'.1.trans hf.1, fun he => hf.2 (hf'.2 he)⟩

/-- Items kept as they are, or new ones. -/
theorem EditsFrom.of_items (hc : form'.controls = form.controls)
    (ha : ∀ a' ∈ form'.arrays, ∀ item' ∈ a'.items,
      (∃ identity definition, item' = ArrayItemState.new identity definition) ∨
      ∃ a ∈ form.arrays, a.definition = a'.definition ∧ item' ∈ a.items) :
    form.EditsFrom form' where
  controls := fun c hmem => ⟨c, hc ▸ hmem, c.fadesTo_refl⟩
  items := by
    intro a' ha' item' hitem'
    rcases ha a' ha' item' hitem' with ⟨identity, definition, rfl⟩ | ⟨a, hmem, hd, hitem⟩
    · exact .inl fun c hc => mem_new_controls hc
    · exact .inr ⟨a, hmem, hd, item', hitem, fun c hc => ⟨c, hc, c.fadesTo_refl⟩⟩

theorem EditsFrom.of_eq (hc : form'.controls = form.controls)
    (ha : form'.arrays.map (fun a => (a.definition, a.items)) =
      form.arrays.map fun a => (a.definition, a.items)) : form.EditsFrom form' := by
  refine .of_items hc fun a' ha' item' hitem' => .inr ?_
  have hmem : (a'.definition, a'.items) ∈ form.arrays.map fun a => (a.definition, a.items) :=
    ha ▸ List.mem_map_of_mem ha'
  obtain ⟨a, ha, he⟩ := List.mem_map.mp hmem
  obtain ⟨hd, hi⟩ := Prod.mk.inj he
  exact ⟨a, ha, hd, hi.symm ▸ hitem'⟩

theorem EditsFrom.refl (form : Form) : form.EditsFrom form := .of_eq rfl rfl

theorem EditsFrom.advance (h : form.EditsFrom form') (d s : Bool) :
    form.EditsFrom (form'.advance d s) := h.trans (.of_eq rfl rfl)

theorem EditsFrom.of_data {formData : Value} (h : { form with formData }.EditsFrom form') :
    form.EditsFrom form' := by
  have hdata : form.EditsFrom { form with formData } := .of_eq rfl rfl
  exact hdata.trans h

/-! ## One control, every control -/

theorem modifyControl_from (form : Form) {edit : ControlState → ControlState}
    (he : ∀ c : ControlState, c.FadesTo (edit c)) (location : ControlLocation) :
    form.EditsFrom (form.modifyControl edit location) := by
  cases location with
  | static i =>
    refine ⟨fun c' hc' => ?_, fun a ha item hitem =>
      .inr ⟨a, ha, rfl, item, hitem, fun c hc => ⟨c, hc, c.fadesTo_refl⟩⟩⟩
    rcases mem_modify hc' with ⟨c, hc, rfl⟩ | ⟨j, _, hc⟩
    · exact ⟨c, List.mem_of_getElem? hc, he c⟩
    · exact ⟨c', List.mem_of_getElem? hc, c'.fadesTo_refl⟩
  | arrayItem a i k =>
    refine ⟨fun c hc => ⟨c, hc, c.fadesTo_refl⟩, fun a' ha' item' hitem' => .inr ?_⟩
    rcases mem_modify ha' with ⟨array, ha, rfl⟩ | ⟨j, _, ha⟩
    · rcases mem_modify hitem' with ⟨item, hitem, rfl⟩ | ⟨j, _, hitem⟩
      · refine ⟨array, List.mem_of_getElem? ha, rfl, item, List.mem_of_getElem? hitem,
          fun c' hc' => ?_⟩
        rcases mem_modify hc' with ⟨c, hc, rfl⟩ | ⟨j, _, hc⟩
        · exact ⟨c, List.mem_of_getElem? hc, he c⟩
        · exact ⟨c', List.mem_of_getElem? hc, c'.fadesTo_refl⟩
      · exact ⟨array, List.mem_of_getElem? ha, rfl, item', List.mem_of_getElem? hitem,
          fun c hc => ⟨c, hc, c.fadesTo_refl⟩⟩
    · exact ⟨a', List.mem_of_getElem? ha, rfl, item', hitem',
        fun c hc => ⟨c, hc, c.fadesTo_refl⟩⟩

theorem mapControls_from (form : Form) {edit : ControlState → ControlState}
    (he : ∀ c : ControlState, c.FadesTo (edit c)) : form.EditsFrom (form.mapControls edit) := by
  refine ⟨fun c' hc' => ?_, fun a' ha' item' hitem' => .inr ?_⟩
  · obtain ⟨c, hc, rfl⟩ := List.mem_map.mp hc'
    exact ⟨c, hc, he c⟩
  · obtain ⟨a, ha, rfl⟩ := List.mem_map.mp ha'
    obtain ⟨item, hitem, rfl⟩ := List.mem_map.mp hitem'
    refine ⟨a, ha, rfl, item, hitem, fun c' hc' => ?_⟩
    obtain ⟨c, hc, rfl⟩ := List.mem_map.mp hc'
    exact ⟨c, hc, he c⟩

/-! ## Operations -/

section Operations

variable {binding : Pointer}

theorem setValue_from {value : Value} {r : Except EditError Unit}
    (h : form.setValue binding value = (form', r)) : form.EditsFrom form' := by
  rcases setValue_cases h with ⟨rfl, _⟩ |
    ⟨_, control, location, _, _, ⟨rfl, _⟩ | ⟨formData, _, _, rfl⟩⟩
  · exact .refl _
  · exact .refl _
  · exact (modifyControl_from { form with formData } ControlState.fadesTo_clearEditState
      location).of_data.advance true true

theorem blur_from {r : Except EditError Unit} (h : form.blur binding = (form', r)) :
    form.EditsFrom form' := by
  rcases blur_cases h with ⟨rfl, _⟩ | ⟨_, control, location, _, rfl⟩ |
    ⟨_, index, array, _, _, _, ⟨_, rfl⟩ | ⟨_, rfl⟩⟩
  · exact .refl _
  · exact (modifyControl_from form ControlState.fadesTo_touchControl location).advance false _
  · exact .refl _
  · exact .of_eq rfl (map_items_modify_touched form.arrays index)

theorem reconcile_from (form : Form) (binding : Pointer) :
    form.EditsFrom (form.reconcileAuthoritativeArrays binding) := by
  refine .of_items rfl fun a' ha' item' hitem' => ?_
  rcases mem_reconcileArrays binding form.formData ha' with ⟨hmem, _⟩ | ⟨_, m, hitems⟩
  · exact .inr ⟨a', hmem, rfl, hitem'⟩
  · rw [hitems] at hitem'
    obtain ⟨identity, rfl⟩ := mem_freshArrayItems hitem'
    exact .inl ⟨identity, _, rfl⟩

theorem clear_from (form : Form) (binding : Pointer) :
    form.EditsFrom (form.clearEditStateBelow binding) := by
  refine ⟨fun c' hc' => ?_, fun a' ha' item' hitem' => .inr ?_⟩
  · obtain ⟨c, hc, rfl⟩ := List.mem_map.mp hc'
    exact ⟨c, hc, c.fadesTo_clearControlBelow _ _⟩
  · obtain ⟨a, ha, rfl⟩ := List.mem_map.mp ha'
    obtain ⟨i, item, hitem, rfl⟩ := mem_mapIdx hitem'
    refine ⟨a, ha, rfl, item, List.mem_of_getElem? hitem, fun c' hc' => ?_⟩
    obtain ⟨c, hc, rfl⟩ := List.mem_map.mp hc'
    exact ⟨c, hc, c.fadesTo_clearControlBelow _ _⟩

theorem materializeStructure_from {value : Value} {r : Except EditError Unit}
    (h : form.materializeStructure binding value = (form', r)) : form.EditsFrom form' := by
  rcases materializeStructure_cases h with ⟨rfl, _⟩ | ⟨_, _, _, formData, _, rfl⟩
  · exact .refl _
  · exact (reconcile_from { form with formData } binding).of_data.advance true true

theorem repaired_from (form : Form) (formData : Value) (binding : Pointer) : form.EditsFrom
    (({ form with formData }.reconcileAuthoritativeArrays binding).clearEditStateBelow binding) :=
  ((reconcile_from { form with formData } binding).trans (clear_from _ binding)).of_data

theorem replaceStructure_from {value : Value} {r : Except EditError Unit}
    (h : form.replaceStructure binding value = (form', r)) : form.EditsFrom form' := by
  rcases replaceStructure_cases h with ⟨rfl, _⟩ | ⟨_, _, formData, _, _, _, rfl⟩
  · exact .refl _
  · exact (repaired_from form formData binding).advance true true

theorem removeValue_from {r : Except EditError Unit} (h : form.removeValue binding = (form', r)) :
    form.EditsFrom form' := by
  rcases removeValue_cases h with ⟨rfl, _⟩ | ⟨_, formData, _, rfl⟩
  · exact .refl _
  · exact (repaired_from form formData binding).advance true true

theorem ItemsEdited.from {numbers : NumberInput} (h : form.ItemsEdited numbers form') :
    form.EditsFrom form' := by
  obtain ⟨binding, index, array, values', items', next, formData, dataChanged, hw, _, _, _, hkept, _,
    rfl⟩ := h.edited
  refine .of_items rfl fun a' ha' item' hitem' => ?_
  rcases mem_writeItems hw.at.1 ha' with rfl | ⟨j, _, ha⟩
  · rcases hkept item' hitem' with hmem | ⟨i, _, _, rfl⟩
    · exact .inr ⟨array, List.mem_of_getElem? hw.at.1, rfl, hmem⟩
    · exact .inl ⟨i, _, rfl⟩
  · exact .inr ⟨a', List.mem_of_getElem? ha, rfl, hitem'⟩

theorem EditsFrom.of_clear (hc : ∀ c' ∈ form'.controls, ∃ c ∈ form.controls, c.FadesTo c')
    (h : ∀ c ∈ form'.allControls, c.hasEditState = false) : form.EditsFrom form' :=
  ⟨hc, fun a' ha' item' hitem' => .inl fun c hc => h c <| List.mem_append_right _ <|
    List.mem_flatMap.mpr ⟨item', List.mem_flatMap.mpr ⟨a', ha', hitem'⟩, hc⟩⟩

theorem mem_map_clearLifecycle {controls : List ControlState} {c' : ControlState}
    (h : c' ∈ controls.map ControlState.clearLifecycleState) : ∃ c ∈ controls, c.FadesTo c' := by
  obtain ⟨c, hc, rfl⟩ := List.mem_map.mp h
  exact ⟨c, hc, c.fadesTo_clearLifecycleState⟩

theorem reset_from (form : Form) : form.EditsFrom form.reset :=
  .of_clear (fun _ => mem_map_clearLifecycle) (reset_clear form)

theorem reinitialize_from {formData : Value} {r : Except CreateFormError Unit}
    (h : form.reinitialize formData = (form', r)) : form.EditsFrom form' := by
  rcases reinitialize_cases h with ⟨rfl, _⟩ | ⟨_, _, rfl⟩
  · exact .refl _
  · refine ⟨fun _ => mem_map_clearLifecycle, fun a' ha' item' hitem' => .inl fun c hc => ?_⟩
    obtain ⟨_, m, hitems⟩ := mem_freshArrays formData ha'
    rw [hitems] at hitem'
    obtain ⟨identity, rfl⟩ := mem_freshArrayItems hitem'
    exact mem_new_controls hc

theorem prepareSubmission_from (form : Form) : form.EditsFrom form.prepareSubmission.1 := by
  rw [prepareSubmission_form]
  refine EditsFrom.advance ?_ false _
  have hattempted : form.EditsFrom { form with submissionAttempted := true } := .of_eq rfl rfl
  exact hattempted.trans (mapControls_from _ ControlState.fadesTo_finalizeEditBuffer)

theorem applyHostTransaction_from {definition : FormDefinition} {numbers : NumberInput}
    {formData : Value}
    {writes : List Pointer} {arrayChanges : List HostArrayChange}
    {itemWrites : List HostItemWrite} {r : Except CreateFormError Unit}
    (hinv : form.Inv definition numbers) (hfound : form.ItemWritesFound itemWrites)
    (h : form.applyHostTransaction formData writes arrayChanges itemWrites = (form', r)) :
    form.EditsFrom form' := by
  rcases applyHostTransaction_cases hinv.identities_nodup hfound h with ⟨rfl, _⟩ |
    ⟨_, _, hlen, hvalid, _, rfl, _⟩
  · exact .refl _
  refine EditsFrom.advance ⟨fun c' hc' => ?_, fun a' ha' item' hitem' => ?_⟩ _ _
  · obtain ⟨c, hc, rfl⟩ := List.mem_map.mp hc'
    exact ⟨c, hc, c.fadesTo_clearWritten writes⟩
  · obtain ⟨k, hk⟩ := List.mem_iff_getElem?.mp ha'
    obtain ⟨j, hj⟩ := List.mem_iff_getElem?.mp hitem'
    rcases committed_item hinv hlen hvalid hk hj with ⟨identity, rfl⟩ |
      ⟨a, topology, i, item, ha, hd, _, hi, _, rfl⟩
    · exact .inl fun c hc => mem_new_controls hc
    · refine .inr ⟨a, List.mem_of_getElem? ha, hd.symm, item, List.mem_of_getElem? hi,
        fun c' hc' => ?_⟩
      obtain ⟨c, hc, rfl⟩ := List.mem_map.mp hc'
      exact ⟨c, hc, c.fadesTo_clearWritten _⟩

end Operations

/-! ## Typing -/

/-- Only controls that meet `P`, by their array and their definition, have edit state. -/
structure TypedOnly (P : Option Pointer → ControlDefinition → Prop) (form : Form) : Prop where
  controls : ∀ c ∈ form.controls, c.hasEditState = true → P none c.definition
  items : ∀ a ∈ form.arrays, ∀ item ∈ a.items, ∀ c ∈ item.controls, c.hasEditState = true →
    P (some a.definition.binding) c.definition

variable {P : Option Pointer → ControlDefinition → Prop}

theorem TypedOnly.of_from (h : form.TypedOnly P) (hf : form.EditsFrom form') :
    form'.TypedOnly P where
  controls := by
    intro c' hc' he
    obtain ⟨c, hc, hd, hs⟩ := hf.controls c' hc'
    exact hd ▸ h.controls c hc (hs he)
  items := by
    intro a' ha' item' hitem' c' hc' he
    rcases hf.items a' ha' item' hitem' with hclear | ⟨a, ha, hda, item, hitem, hcs⟩
    · rw [hclear c' hc'] at he
      cases he
    · obtain ⟨c, hc, hd, hs⟩ := hcs c' hc'
      exact hda ▸ hd ▸ h.items a ha item hitem c hc (hs he)

/-- The binding of the array whose item a location is in. -/
def owner (form : Form) : ControlLocation → Option Pointer
  | .static _ => none
  | .arrayItem array _ _ => (form.arrays[array]?).map (·.definition.binding)

theorem TypedOnly.modifyControl (h : form.TypedOnly P) {binding : Pointer} {control : ControlState}
    {location : ControlLocation} (hat : form.At binding control location)
    {edit : ControlState → ControlState} (he : ∀ c, (edit c).definition = c.definition)
    (hp : P (form.owner location) control.definition) :
    (form.modifyControl edit location).TypedOnly P := by
  cases location with
  | static i =>
    refine ⟨fun c' hc' hs => ?_, h.items⟩
    rcases mem_modify hc' with ⟨c, hc, rfl⟩ | ⟨j, _, hc⟩
    · obtain rfl := Option.some.inj (hat.1.symm.trans hc)
      exact (he control).symm ▸ hp
    · exact h.controls c' (List.mem_of_getElem? hc) hs
  | arrayItem a i k =>
    obtain ⟨array, item, ha, hi, hk, _⟩ := hat
    refine ⟨h.controls, fun a' ha' item' hitem' c' hc' hs => ?_⟩
    rcases mem_modify ha' with ⟨array', harray, rfl⟩ | ⟨j, _, harray⟩
    · obtain rfl := Option.some.inj (ha.symm.trans harray)
      rcases mem_modify hitem' with ⟨item'', hitem, rfl⟩ | ⟨j, _, hitem⟩
      · obtain rfl := Option.some.inj (hi.symm.trans hitem)
        rcases mem_modify hc' with ⟨c, hc, rfl⟩ | ⟨j, _, hc⟩
        · obtain rfl := Option.some.inj (hk.symm.trans hc)
          rw [owner, ha, Option.map_some] at hp
          exact (he control).symm ▸ hp
        · exact h.items array (List.mem_of_getElem? ha) item (List.mem_of_getElem? hi) c'
            (List.mem_of_getElem? hc) hs
      · exact h.items array (List.mem_of_getElem? ha) item' (List.mem_of_getElem? hitem) c' hc' hs
    · exact h.items a' (List.mem_of_getElem? harray) item' hitem' c' hc' hs

theorem editText_typed (h : form.TypedOnly P) {binding : Pointer} {input : String}
    {numbers : NumberInput} {r : Except EditError Unit}
    (hp : ∀ control location, form.At binding control location →
      P (form.owner location) control.definition)
    (he : form.editTextWithIntegerDigitLimit numbers.parser binding input numbers.maximumDigits =
      (form', r)) :
    form'.TypedOnly P := by
  rcases editText_cases he with ⟨rfl, _⟩ | ⟨_, edit, control, formData, hprep, _, rfl⟩
  · exact h
  · have hdata : ({ form with formData } : Form).TypedOnly P := ⟨h.controls, h.items⟩
    have hat : ({ form with formData } : Form).At binding control edit.location := by
      have hfound := hprep.found
      cases hl : edit.location <;> rw [hl] at hfound <;> exact hfound
    have howner : ({ form with formData } : Form).owner edit.location = form.owner edit.location := by
      cases edit.location <;> rfl
    have hmodified : (({ form with formData } : Form).modifyControl (fun control =>
        { control with editBuffer := some input, parseBlocker := edit.nextParseBlocker })
        edit.location).TypedOnly P :=
      hdata.modifyControl hat (fun _ => rfl) (howner ▸ hp control _ hprep.found)
    exact hmodified.of_from ((EditsFrom.refl _).advance _ _)

end Form

end Schemaform.Engine
