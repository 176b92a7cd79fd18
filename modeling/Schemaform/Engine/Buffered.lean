import Schemaform.Engine.Progress
import Schemaform.Engine.Typed

/-!
# Engine.Buffered

The edit buffers of a form, with repetition: only typing adds one.

* `buffers`: every present buffer.
* `BuffersFrom`: what an operation leaves of each control and each item.
* `buffers_subperm`: no more buffers than before, and no other ones.
* `editText_buffers`: typing writes one control's buffer.
-/

namespace Schemaform.Engine

/-- The same buffer, or none. -/
def ControlState.Dims (c c' : ControlState) : Prop :=
  c'.editBuffer = none ∨ c'.editBuffer = c.editBuffer

namespace ControlState

variable (c : ControlState)

theorem dims_refl : c.Dims c := .inr rfl

theorem dims_clearEditState : c.Dims c.clearEditState := .inl rfl

theorem dims_finalizeEditBuffer : c.Dims c.finalizeEditBuffer := by
  unfold finalizeEditBuffer
  split
  · exact .inl rfl
  · exact c.dims_refl

theorem dims_touchControl : c.Dims (Form.touchControl c) := dims_finalizeEditBuffer c

theorem dims_clearControlBelow (binding q : Pointer) :
    c.Dims (Form.clearControlBelow binding q c) := by
  unfold Form.clearControlBelow
  split
  · exact c.dims_clearEditState
  · exact c.dims_refl

theorem dims_clearWritten (writes : List Pointer) : c.Dims (Form.clearWritten writes c) := by
  unfold Form.clearWritten
  split
  · exact c.dims_clearEditState
  · exact c.dims_refl

theorem Dims.trans {c c' c'' : ControlState} (h : c.Dims c') (h' : c'.Dims c'') : c.Dims c'' := by
  rcases h' with h' | h'
  · exact .inl h'
  · exact h.imp (h'.trans ·) (h'.trans ·)

end ControlState

def controlBuffers (controls : List ControlState) : List String :=
  controls.filterMap (·.editBuffer)

theorem controlBuffers_sublist {controls controls' : List ControlState}
    (h : List.Forall₂ ControlState.Dims controls controls') :
    (controlBuffers controls').Sublist (controlBuffers controls) := by
  unfold controlBuffers
  induction h with
  | nil => exact .refl _
  | @cons c c' _ _ hc _ ih =>
    rw [List.filterMap_cons, List.filterMap_cons]
    rcases hc with hc | hc
    · rw [hc]
      cases c.editBuffer with
      | none => exact ih
      | some _ => exact ih.cons _
    · rw [hc]
      cases c.editBuffer with
      | none => exact ih
      | some _ => exact ih.cons_cons _

theorem dims_map {edit : ControlState → ControlState} (he : ∀ c : ControlState, c.Dims (edit c))
    (controls : List ControlState) :
    List.Forall₂ ControlState.Dims controls (controls.map edit) :=
  List.forall₂_map_right_iff.mpr (List.forall₂_same.mpr fun c _ => he c)

theorem dims_refl (controls : List ControlState) :
    List.Forall₂ ControlState.Dims controls controls :=
  List.forall₂_same.mpr fun c _ => c.dims_refl

theorem dims_modify {edit : ControlState → ControlState} (he : ∀ c : ControlState, c.Dims (edit c))
    (controls : List ControlState) (i : Nat) :
    List.Forall₂ ControlState.Dims controls (controls.modify i edit) := by
  induction controls generalizing i with
  | nil => cases i <;> exact .nil
  | cons c controls ih =>
    cases i with
    | zero => exact .cons (he c) (dims_refl controls)
    | succ i => exact .cons c.dims_refl (ih i)

def ArrayItemState.buffers (item : ArrayItemState) : List String := controlBuffers item.controls

theorem buffers_new (identity : Nat) (definition : ArrayDefinition) :
    (ArrayItemState.new identity definition).buffers = [] := by
  refine List.filterMap_eq_nil_iff.mpr fun c hc => ?_
  obtain ⟨d, _, rfl⟩ := List.mem_map.mp hc
  rfl

def ArrayState.buffers (array : ArrayState) : List String :=
  array.items.flatMap ArrayItemState.buffers

/-- An item without buffers, or one with some of the buffers of the item it was. -/
def ArrayState.ItemFrom (array : ArrayState) (item' : ArrayItemState) : Prop :=
  item'.buffers = [] ∨ ∃ item ∈ array.items, item.identity = item'.identity ∧
    item'.buffers.Sublist item.buffers

namespace Form

open ListEdit

def buffers (form : Form) : List String := controlBuffers form.allControls

theorem buffers_eq (form : Form) : form.buffers =
    controlBuffers form.controls ++ form.arrays.flatMap ArrayState.buffers := by
  unfold buffers allControls controlBuffers ArrayState.buffers ArrayItemState.buffers controlBuffers
  rw [List.filterMap_append, List.filterMap_flatMap, List.flatMap_assoc]

/-- What is left of each control and of each item; a reset still leads to the same data. -/
structure BuffersFrom (form form' : Form) : Prop where
  baseline : form'.baseline = form.baseline
  controls : List.Forall₂ ControlState.Dims form.controls form'.controls
  arrays : List.Forall₂ (fun array array' => ∀ item' ∈ array'.items, array.ItemFrom item')
    form.arrays form'.arrays

variable {form form' form'' : Form}

theorem buffers_subperm (h : form.BuffersFrom form')
    (hnd : ∀ a' ∈ form'.arrays, a'.identities.Nodup) : form'.buffers.Subperm form.buffers := by
  rw [buffers_eq, buffers_eq]
  refine subperm_append (controlBuffers_sublist h.controls).subperm (flatMap_subperm ?_)
  refine List.forall₂_iff_get.mpr ⟨h.arrays.length_eq, fun k hk hk' => ?_⟩
  have hitems := (List.forall₂_iff_get.mp h.arrays).2 k hk hk'
  refine flatMap_subperm_of_keyed (hnd _ (List.getElem_mem hk')) fun item' hitem' => ?_
  refine (hitems item' hitem').imp_right ?_
  rintro ⟨item, hitem, hid, hsub⟩
  exact ⟨item, hitem, hid, hsub.subperm⟩

theorem BuffersFrom.trans (h : form.BuffersFrom form') (h' : form'.BuffersFrom form'') :
    form.BuffersFrom form'' := by
  constructor
  · exact h'.baseline.trans h.baseline
  · refine forall₂_trans (fun _ _ _ _ _ _ => ControlState.Dims.trans) h.controls h'.controls
  · refine forall₂_trans (fun a _ a' _ a'' _ hitems hitems' item'' hitem'' => ?_) h.arrays h'.arrays
    rcases hitems' item'' hitem'' with hnil | ⟨item', hitem', hid', hsub'⟩
    · exact .inl hnil
    · rcases hitems item' hitem' with hnil | ⟨item, hitem, hid, hsub⟩
      · rw [hnil] at hsub'
        exact .inl (List.sublist_nil.mp hsub')
      · exact .inr ⟨item, hitem, hid.trans hid', hsub'.trans hsub⟩

theorem itemFrom_self {array : ArrayState} {item : ArrayItemState} (h : item ∈ array.items) :
    array.ItemFrom item := .inr ⟨item, h, rfl, .refl _⟩

theorem BuffersFrom.of_eq (hb : form'.baseline = form.baseline)
    (hc : form'.controls = form.controls)
    (ha : form'.arrays.map (·.items) = form.arrays.map (·.items)) : form.BuffersFrom form' := by
  refine ⟨hb, hc ▸ dims_refl form.controls, ?_⟩
  have hitems : List.Forall₂ (· = ·) (form.arrays.map (·.items)) (form'.arrays.map (·.items)) :=
    ha ▸ List.forall₂_same.mpr fun _ _ => rfl
  rw [List.forall₂_map_left_iff, List.forall₂_map_right_iff] at hitems
  exact hitems.imp fun a a' heq item' hitem' => itemFrom_self (heq ▸ hitem')

theorem BuffersFrom.refl (form : Form) : form.BuffersFrom form := .of_eq rfl rfl rfl

theorem BuffersFrom.advance (h : form.BuffersFrom form') (d s : Bool) :
    form.BuffersFrom (form'.advance d s) := ⟨h.baseline, h.controls, h.arrays⟩

theorem BuffersFrom.of_data {formData : Value} (h : { form with formData }.BuffersFrom form') :
    form.BuffersFrom form' := ⟨h.baseline, h.controls, h.arrays⟩

/-! ## One control, every control -/

theorem forall₂_modify_same {α : Type} {R : α → α → Prop} (hrefl : ∀ a, R a a) {f : α → α}
    (hf : ∀ a, R a (f a)) (l : List α) (i : Nat) : List.Forall₂ R l (l.modify i f) := by
  induction l generalizing i with
  | nil => cases i <;> exact .nil
  | cons a l ih =>
    cases i with
    | zero => exact .cons (hf a) (List.forall₂_same.mpr fun a _ => hrefl a)
    | succ i => exact .cons (hrefl a) (ih i)

theorem modifyControl_buffers (form : Form) {edit : ControlState → ControlState}
    (he : ∀ c : ControlState, c.Dims (edit c)) (location : ControlLocation) :
    form.BuffersFrom (form.modifyControl edit location) := by
  cases location with
  | static i =>
    refine ⟨rfl, dims_modify he form.controls i, ?_⟩
    exact List.forall₂_same.mpr fun a _ item hitem => itemFrom_self hitem
  | arrayItem a i k =>
    refine ⟨rfl, dims_refl form.controls, forall₂_modify_same
      (fun a item hitem => itemFrom_self hitem) (fun a item' hitem' => ?_) form.arrays a⟩
    rcases mem_modify hitem' with ⟨item, hitem, rfl⟩ | ⟨j, _, hitem⟩
    · exact .inr ⟨item, List.mem_of_getElem? hitem, rfl,
        controlBuffers_sublist (dims_modify he item.controls k)⟩
    · exact itemFrom_self (List.mem_of_getElem? hitem)

theorem mapControls_buffers (form : Form) {edit : ControlState → ControlState}
    (he : ∀ c : ControlState, c.Dims (edit c)) : form.BuffersFrom (form.mapControls edit) := by
  refine ⟨rfl, dims_map he form.controls, List.forall₂_map_right_iff.mpr
    (List.forall₂_same.mpr fun a _ item' hitem' => ?_)⟩
  obtain ⟨item, hitem, rfl⟩ := List.mem_map.mp hitem'
  exact .inr ⟨item, hitem, rfl, controlBuffers_sublist (dims_map he item.controls)⟩

/-! ## Operations -/

section Operations

variable {binding : Pointer}

theorem setValue_buffers {value : Value} {r : Except EditError Unit}
    (h : form.setValue binding value = (form', r)) : form.BuffersFrom form' := by
  rcases setValue_cases h with ⟨rfl, _⟩ |
    ⟨_, control, location, _, _, ⟨rfl, _⟩ | ⟨formData, _, _, rfl⟩⟩
  · exact .refl _
  · exact .refl _
  · exact (modifyControl_buffers { form with formData } ControlState.dims_clearEditState
      location).of_data.advance true true

theorem blur_buffers {r : Except EditError Unit} (h : form.blur binding = (form', r)) :
    form.BuffersFrom form' := by
  rcases blur_cases h with ⟨rfl, _⟩ | ⟨_, control, location, _, rfl⟩ |
    ⟨_, index, array, _, _, _, ⟨_, rfl⟩ | ⟨_, rfl⟩⟩
  · exact .refl _
  · exact (modifyControl_buffers form ControlState.dims_touchControl location).advance false _
  · exact .refl _
  · refine .of_eq rfl rfl (map_modify ?_ index form.arrays)
    intro _
    rfl

theorem reconcile_buffers (form : Form) (binding : Pointer) :
    form.BuffersFrom (form.reconcileAuthoritativeArrays binding) := by
  refine ⟨rfl, dims_refl form.controls, ?_⟩
  change List.Forall₂ _ form.arrays
    (reconcileArrays binding form.formData form.arrays form.nextItemIdentity).1
  generalize form.arrays = arrays
  generalize form.nextItemIdentity = n
  induction arrays generalizing n with
  | nil => exact .nil
  | cons a arrays ih =>
    simp only [reconcileArrays]
    split
    · refine .cons (fun item' hitem' => .inl ?_) (ih _)
      obtain ⟨identity, rfl⟩ := mem_freshArrayItems hitem'
      exact buffers_new identity a.definition
    · exact .cons (fun item hitem => itemFrom_self hitem) (ih n)

theorem clear_buffers (form : Form) (binding : Pointer) :
    form.BuffersFrom (form.clearEditStateBelow binding) := by
  refine ⟨rfl, ?_, ?_⟩
  · exact List.forall₂_map_right_iff.mpr
      (List.forall₂_same.mpr fun c _ => c.dims_clearControlBelow _ _)
  · refine List.forall₂_map_right_iff.mpr (List.forall₂_same.mpr fun a _ item' hitem' => ?_)
    obtain ⟨i, item, hitem, rfl⟩ := mem_mapIdx hitem'
    refine .inr ⟨item, List.mem_of_getElem? hitem, rfl, controlBuffers_sublist ?_⟩
    exact List.forall₂_map_right_iff.mpr
      (List.forall₂_same.mpr fun c _ => c.dims_clearControlBelow _ _)

theorem materializeStructure_buffers {value : Value} {r : Except EditError Unit}
    (h : form.materializeStructure binding value = (form', r)) : form.BuffersFrom form' := by
  rcases materializeStructure_cases h with ⟨rfl, _⟩ | ⟨_, _, _, formData, _, rfl⟩
  · exact .refl _
  · exact (reconcile_buffers { form with formData } binding).of_data.advance true true

theorem repaired_buffers (form : Form) (formData : Value) (binding : Pointer) : form.BuffersFrom
    (({ form with formData }.reconcileAuthoritativeArrays binding).clearEditStateBelow binding) :=
  ((reconcile_buffers { form with formData } binding).trans (clear_buffers _ binding)).of_data

theorem replaceStructure_buffers {value : Value} {r : Except EditError Unit}
    (h : form.replaceStructure binding value = (form', r)) : form.BuffersFrom form' := by
  rcases replaceStructure_cases h with ⟨rfl, _⟩ | ⟨_, _, formData, _, _, _, rfl⟩
  · exact .refl _
  · exact (repaired_buffers form formData binding).advance true true

theorem removeValue_buffers {r : Except EditError Unit}
    (h : form.removeValue binding = (form', r)) : form.BuffersFrom form' := by
  rcases removeValue_cases h with ⟨rfl, _⟩ | ⟨_, formData, _, rfl⟩
  · exact .refl _
  · exact (repaired_buffers form formData binding).advance true true

theorem ItemsEdited.buffers {numbers : NumberInput} (h : form.ItemsEdited numbers form') :
    form.BuffersFrom form' := by
  obtain ⟨binding, index, array, values', items', next, formData, dataChanged, hw, _, _, _, hkept, _,
    rfl⟩ := h.edited
  refine ⟨rfl, dims_refl form.controls, ?_⟩
  change List.Forall₂ _ form.arrays (form.arrays.modify index fun a => { a with items := items' })
  refine List.forall₂_iff_get.mpr ⟨(List.length_modify _ _ _).symm, fun k hk hk' => ?_⟩
  rw [List.get_eq_getElem, List.get_eq_getElem, List.getElem_modify]
  intro item' hitem'
  by_cases hki : index = k
  · subst hki
    rw [if_pos rfl] at hitem'
    have hat : form.arrays[index] = array := by
      have hget := hw.at.1
      rw [List.getElem?_eq_getElem hk] at hget
      exact Option.some.inj hget
    rcases hkept item' hitem' with hmem | ⟨i, _, _, rfl⟩
    · exact itemFrom_self (hat ▸ hmem)
    · exact .inl (buffers_new i array.definition)
  · rw [if_neg hki] at hitem'
    exact itemFrom_self hitem'

theorem applyHostTransaction_buffers {definition : FormDefinition} {numbers : NumberInput}
    {formData : Value} {writes : List Pointer} {arrayChanges : List HostArrayChange}
    {itemWrites : List HostItemWrite} {r : Except CreateFormError Unit}
    (hinv : form.Inv definition numbers) (hinv' : form'.Inv definition numbers)
    (hfound : form.ItemWritesFound itemWrites)
    (h : form.applyHostTransaction formData writes arrayChanges itemWrites = (form', r)) :
    form.BuffersFrom form' := by
  rcases applyHostTransaction_cases hinv.identities_nodup hfound h with ⟨rfl, _⟩ |
    ⟨_, _, hlen, hvalid, _, rfl, _⟩
  · exact .refl _
  suffices h : form.BuffersFrom (form.committed formData writes arrayChanges itemWrites) from
    h.advance _ _
  refine ⟨rfl, dims_map (fun c => c.dims_clearWritten writes) form.controls, ?_⟩
  have hlength : form.arrays.length =
      (form.committed formData writes arrayChanges itemWrites).arrays.length := by
    have hbefore := congrArg List.length hinv.shaped.arrays
    have hafter := congrArg List.length hinv'.shaped.arrays
    rw [List.length_map] at hbefore hafter
    exact hbefore.trans hafter.symm
  refine List.forall₂_iff_get.mpr ⟨hlength, fun k hk hk' item' hitem' => ?_⟩
  obtain ⟨j, hj⟩ := List.mem_iff_getElem?.mp hitem'
  rcases committed_item hinv hlen hvalid (List.getElem?_eq_getElem hk') hj with ⟨identity, rfl⟩ |
    ⟨a, topology, i, item, ha, _, _, hi, _, rfl⟩
  · exact .inl (buffers_new identity _)
  · rw [List.getElem?_eq_getElem hk] at ha
    obtain rfl := Option.some.inj ha
    refine .inr ⟨item, List.mem_of_getElem? hi, rfl, controlBuffers_sublist ?_⟩
    exact dims_map (fun c => c.dims_clearWritten _) item.controls

theorem prepareSubmission_buffers (form : Form) : form.BuffersFrom form.prepareSubmission.1 := by
  rw [prepareSubmission_form]
  refine BuffersFrom.advance ?_ false _
  have hattempted : form.BuffersFrom { form with submissionAttempted := true } := .of_eq rfl rfl rfl
  exact hattempted.trans (mapControls_buffers _ ControlState.dims_finalizeEditBuffer)

theorem buffers_of_clear (h : ∀ c ∈ form.allControls, c.hasEditState = false) :
    form.buffers = [] := by
  refine List.filterMap_eq_nil_iff.mpr fun c hc => ?_
  have hclear := h c hc
  rw [ControlState.hasEditState, Bool.or_eq_false_iff] at hclear
  exact Option.not_isSome_iff_eq_none.mp (Bool.eq_false_iff.mp hclear.1)

end Operations

/-! ## Typing -/

theorem modify_split {α : Type} {l : List α} {i : Nat} {a : α} (h : l[i]? = some a) (f : α → α) :
    ∃ l₁ l₂, l = l₁ ++ a :: l₂ ∧ l.modify i f = l₁ ++ f a :: l₂ := by
  induction l generalizing i with
  | nil => cases h
  | cons b l ih =>
    cases i with
    | zero => cases h; exact ⟨[], l, rfl, rfl⟩
    | succ i =>
      obtain ⟨l₁, l₂, rfl, hm⟩ := ih h
      exact ⟨b :: l₁, l₂, rfl, congrArg (b :: ·) hm⟩

theorem flatMap_split {α β : Type} (g : α → List β) {a : α} (a' : α) {b b' : β} {m₁ m₂ : List β}
    (ha : g a = m₁ ++ b :: m₂) (ha' : g a' = m₁ ++ b' :: m₂) (l₁ l₂ : List α) : ∃ k₁ k₂,
      (l₁ ++ a :: l₂).flatMap g = k₁ ++ b :: k₂ ∧ (l₁ ++ a' :: l₂).flatMap g = k₁ ++ b' :: k₂ := by
  refine ⟨l₁.flatMap g ++ m₁, m₂ ++ l₂.flatMap g, ?_, ?_⟩
  · simp [ha]
  · simp [ha']

/-- One control among all of them, before and after. -/
theorem allControls_split {binding : Pointer} {control : ControlState} {location : ControlLocation}
    (h : form.At binding control location) (edit : ControlState → ControlState) : ∃ l₁ l₂,
      form.allControls = l₁ ++ control :: l₂ ∧
      (form.modifyControl edit location).allControls = l₁ ++ edit control :: l₂ := by
  unfold allControls
  rw [List.flatMap_assoc, List.flatMap_assoc]
  cases location with
  | static i =>
    obtain ⟨l₁, l₂, hl, hm⟩ := modify_split h.1 edit
    refine ⟨l₁, l₂ ++ form.arrays.flatMap fun a => a.items.flatMap (·.controls), ?_, ?_⟩
    · rw [hl, List.append_assoc, List.cons_append]
    · change form.controls.modify i edit ++ _ = _
      rw [hm, List.append_assoc, List.cons_append]
      rfl
  | arrayItem a i k =>
    obtain ⟨array, item, ha, hi, hc, _⟩ := h
    obtain ⟨c₁, c₂, hcl, hcm⟩ := modify_split hc edit
    obtain ⟨i₁, i₂, hil, him⟩ := modify_split hi
      fun item => { item with controls := item.controls.modify k edit }
    obtain ⟨a₁, a₂, hal, ham⟩ := modify_split ha fun array => { array with
      items := array.items.modify i fun item =>
        { item with controls := item.controls.modify k edit } }
    obtain ⟨k₁, k₂, hk, hk'⟩ := flatMap_split (fun item : ArrayItemState => item.controls)
      { item with controls := item.controls.modify k edit } hcl hcm i₁ i₂
    obtain ⟨m₁, m₂, hm, hm'⟩ := flatMap_split
      (fun array : ArrayState => array.items.flatMap (·.controls))
      { array with items := array.items.modify i fun item =>
        { item with controls := item.controls.modify k edit } }
      (hil ▸ hk) (him ▸ hk') a₁ a₂
    refine ⟨form.controls ++ m₁, m₂, ?_, ?_⟩
    · rw [hal, hm, List.append_assoc]
    · change form.controls ++ (form.arrays.modify a _).flatMap _ = _
      rw [ham, List.append_assoc]
      exact congrArg (form.controls ++ ·) hm'

def bufferBytes (form : Form) : Nat := (form.buffers.map String.utf8ByteSize).sum

theorem prospectiveEditBufferMetrics_eq {binding : Pointer} {control : ControlState}
    (h : form.control binding = some control) (input : String) :
    form.prospectiveEditBufferMetrics binding input =
      .ok (form.buffers.length + (if control.editBuffer.isNone then 1 else 0),
        form.bufferBytes - (control.editBuffer.map String.utf8ByteSize).getD 0 +
          input.utf8ByteSize) := by
  simp only [prospectiveEditBufferMetrics, h]
  rfl

theorem editText_baseline {binding : Pointer} {input : String} {numbers : NumberInput}
    {r : Except EditError Unit}
    (h : form.editTextWithIntegerDigitLimit numbers.parser binding input numbers.maximumDigits =
      (form', r)) :
    form'.baseline = form.baseline := by
  rcases editText_cases h with ⟨rfl, _⟩ | ⟨_, edit, _, _, _, _, rfl⟩
  · rfl
  · cases edit.location <;> rfl

/-- Typing leaves the buffers that were checked for. -/
theorem editText_buffers {definition : FormDefinition} {binding : Pointer} {input : String}
    {numbers : NumberInput} (hd : definition.WellFormed) (hs : form.Shaped definition)
    (h : form.editTextWithIntegerDigitLimit numbers.parser binding input numbers.maximumDigits =
      (form', .ok ())) :
    form.prospectiveEditBufferMetrics binding input =
      .ok (form'.buffers.length, form'.bufferBytes) ∧
    ∀ b ∈ form'.buffers, b = input ∨ b ∈ form.buffers := by
  rcases editText_cases h with ⟨_, _, hr⟩ | ⟨_, edit, control, formData, hprep, _, rfl⟩
  · cases hr
  have hat : { form with formData }.At binding control edit.location := by
    have hfound := hprep.found
    cases hl : edit.location with
    | static i => rwa [hl] at hfound
    | arrayItem a i k => rwa [hl] at hfound
  obtain ⟨l₁, l₂, hbefore, hafter⟩ := allControls_split hat fun control =>
    { control with editBuffer := some input, parseBlocker := edit.nextParseBlocker }
  have hb : form.buffers = controlBuffers l₁ ++ (control.editBuffer.toList ++ controlBuffers l₂) := by
    have hall : form.allControls = l₁ ++ control :: l₂ := hbefore
    rw [buffers, hall, controlBuffers, List.filterMap_append, List.filterMap_cons]
    cases control.editBuffer <;> rfl
  have hb' (d s : Bool) : (({ form with formData }.modifyControl (fun control =>
      { control with editBuffer := some input, parseBlocker := edit.nextParseBlocker })
      edit.location).advance d s).buffers = controlBuffers l₁ ++ input :: controlBuffers l₂ := by
    change controlBuffers (({ form with formData }.modifyControl _ edit.location).allControls) = _
    rw [hafter, controlBuffers, List.filterMap_append, List.filterMap_cons]
    rfl
  constructor
  · rw [prospectiveEditBufferMetrics_eq (control_of_at hd hs hprep.found), bufferBytes, bufferBytes,
      hb', hb]
    cases hbuffer : control.editBuffer with
    | none =>
      simp only [Option.toList, Option.isNone_none, if_true, Option.map_none, Option.getD_none,
        List.nil_append, List.length_append, List.length_cons, List.map_append, List.map_cons,
        List.sum_append, List.sum_cons]
      congr 2
      omega
    | some old =>
      simp only [Option.toList, Option.isNone_some, Option.map_some, Option.getD_some,
        List.cons_append, List.nil_append, List.length_append, List.length_cons, List.map_append,
        List.map_cons, List.sum_append, List.sum_cons]
      congr 2
      omega
  · intro b hmem
    rw [hb', List.mem_append, List.mem_cons] at hmem
    rw [hb, List.mem_append, List.mem_append]
    rcases hmem with hmem | rfl | hmem
    · exact .inr (.inl hmem)
    · exact .inl rfl
    · exact .inr (.inr (.inr hmem))

end Form

end Schemaform.Engine
