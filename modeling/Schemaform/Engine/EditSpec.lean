import Schemaform.Engine.Invariant
import Schemaform.Engine.ParseText

/-!
# Engine.EditSpec

Edits of controls: what they keep, and what they count.

* `StateExact`, `DataExact`: the two revision counters against the state and the data.
* `editText_*`, `setValue_*`, `blur_*`: a failing edit changes nothing, a successful one keeps
  `Form.Inv` and counts exactly.
-/

namespace Schemaform.Engine

namespace Form

/-- The state revision stands still only over an unchanged form, and moves by one. -/
def StateExact (form form' : Form) : Prop :=
  form' = form ∨ form'.stateRevision = form.stateRevision + 1

/-- The data revision moves by one exactly when the data change semantically. -/
def DataExact (form form' : Form) : Prop :=
  form'.dataRevision = form.dataRevision +
    if jsonValuesEqual form.formData form'.formData then 0 else 1

theorem DataExact.of_eq {form form' : Form} (hf : form'.formData = form.formData)
    (hr : form'.dataRevision = form.dataRevision) : form.DataExact form' := by
  simp [DataExact, hf, hr]

theorem DataExact.of_ne {form form' : Form}
    (hf : jsonValuesEqual form.formData form'.formData = false)
    (hr : form'.dataRevision = form.dataRevision + 1) : form.DataExact form' := by
  simp [DataExact, hf, hr]

theorem StateExact.refl (form : Form) : form.StateExact form := .inl rfl

theorem DataExact.refl (form : Form) : form.DataExact form := .of_eq rfl rfl

/-- What one engine operation keeps of a form, whether it succeeds or fails. -/
structure Step (definition : FormDefinition) (numbers : NumberInput)
    (form form' : Form) : Prop where
  inv : form'.Inv definition numbers
  pool : IdentityPool.Step form.pool form'.pool
  state : form.StateExact form'

theorem Step.refl {definition : FormDefinition} {numbers : NumberInput} {form : Form}
    (h : form.Inv definition numbers) : form.Step definition numbers form :=
  ⟨h, .refl h.pool, .refl form⟩

/-! ## Text -/

/-- What a prepared text edit says about the form it was prepared on. -/
structure Prepared (form : Form) (binding : Pointer) (input : String) (numbers : NumberInput)
    (edit : TextEdit) (control : ControlState) : Prop where
  found : form.At binding control edit.location
  textual : control.definition.kind.textual = true
  parsed : (∃ v,
      parseText numbers.parser control.definition.kind input numbers.maximumDigits =
        some (.ok v) ∧ edit.nextParseBlocker = none ∧
      edit.replacement =
        if textUnchanged control.definition.kind (binding.resolve form.formData) v then none
        else some v) ∨
    ∃ b, parseText numbers.parser control.definition.kind input numbers.maximumDigits =
      some (.error b) ∧ edit.nextParseBlocker = some b ∧ edit.replacement = none

theorem parseText_textual {kind : ControlKind} {input : String} {numbers : NumberInput}
    {r : Except ParseBlocker Value}
    (h : parseText numbers.parser kind input numbers.maximumDigits = some r) :
    kind.textual = true := by
  cases kind <;> first | rfl | cases h

theorem prepareTextEdit_ok {form : Form} {binding : Pointer} {input : String}
    {numbers : NumberInput} {edit : TextEdit}
    (h : form.prepareTextEdit numbers.parser binding input numbers.maximumDigits = .ok edit) :
    ∃ control, form.Prepared binding input numbers edit control := by
  simp only [prepareTextEdit] at h
  split at h
  · cases h
  · rename_i location hloc
    obtain ⟨control, hat⟩ := controlLocation_at hloc
    rw [controlState_of_at hat] at h
    dsimp only at h
    split at h
    · cases h
    · rename_i parsed hp
      split at h
      · cases h
      · split at h
        · cases h
        · split at h
          · cases h
          · split at h
            · cases h
              exact ⟨control, hat, parseText_textual hp, .inl ⟨_, hp, rfl, rfl⟩⟩
            · cases h
              exact ⟨control, hat, parseText_textual hp, .inr ⟨_, hp, rfl, rfl⟩⟩

theorem editText_cases {form form' : Form} {binding : Pointer} {input : String}
    {numbers : NumberInput} {r : Except EditError Unit}
    (h : form.editTextWithIntegerDigitLimit numbers.parser binding input numbers.maximumDigits =
      (form', r)) :
    (form' = form ∧ ∃ e, r = .error e) ∨
    (r = .ok () ∧ ∃ edit control formData, form.Prepared binding input numbers edit control ∧
      (edit.replacement = none ∧ formData = form.formData ∨
        ∃ v, edit.replacement = some v ∧ setBoundValue binding v form.formData = some formData) ∧
      form' = ({ form with formData }.modifyControl (fun control =>
        { control with editBuffer := some input, parseBlocker := edit.nextParseBlocker })
        edit.location).advance edit.replacement.isSome
          (control.editBuffer != some input || control.parseBlocker != edit.nextParseBlocker)) := by
  simp only [editTextWithIntegerDigitLimit] at h
  split at h
  · cases h; exact .inl ⟨rfl, _, rfl⟩
  · rename_i edit hedit
    obtain ⟨control, hprep⟩ := prepareTextEdit_ok hedit
    split at h
    · cases h; exact .inl ⟨rfl, _, rfl⟩
    · rename_i formData hfd
      rw [controlState_of_at hprep.found, Option.any_some] at h
      cases h
      refine .inr ⟨rfl, edit, control, formData, hprep, ?_, rfl⟩
      cases hrep : edit.replacement with
      | none => rw [hrep] at hfd; exact .inl ⟨rfl, (Option.some.inj hfd).symm⟩
      | some v => rw [hrep] at hfd; exact .inr ⟨v, rfl, hfd⟩

/-- A replacing text changes the data. -/
theorem Prepared.not_same {form : Form} {binding : Pointer} {input : String} {numbers : NumberInput}
    {edit : TextEdit} {control : ControlState}
    (h : form.Prepared binding input numbers edit control)
    {v : Value} (hv : edit.replacement = some v) :
    parseText numbers.parser control.definition.kind input numbers.maximumDigits =
      some (.ok v) ∧ edit.nextParseBlocker = none ∧
    ¬ SameValue (binding.resolve form.formData) (some v) := by
  rcases h.parsed with ⟨v', hp, hb, hr⟩ | ⟨_, _, _, hr⟩
  · rw [hv] at hr
    split at hr
    · cases hr
    · rename_i hne
      cases hr
      refine ⟨hp, hb, fun hs => hne ?_⟩
      generalize binding.resolve form.formData = current at hs
      cases hs with
      | @some c _ heq =>
        cases hk : control.definition.kind with
        | string =>
          rw [hk] at hp
          cases hp
          simpa [textUnchanged] using jsonValuesEqual_string heq
        | number =>
          rw [hk] at hp
          obtain ⟨lit, rfl, _⟩ := parseNumber_number (Option.some.inj hp)
          exact numbersEqual_of_jsonValuesEqual heq
        | integer =>
          rw [hk] at hp
          obtain ⟨lit, rfl, _⟩ := parseIntegerWithLimit_number (Option.some.inj hp)
          exact numbersEqual_of_jsonValuesEqual heq
        | _ => rw [hk] at hp; cases hp
  · rw [hv] at hr
    cases hr

/-- A text that parses and does not replace spells the present value. -/
theorem Prepared.same {form : Form} {binding : Pointer} {input : String} {numbers : NumberInput}
    {edit : TextEdit} {control : ControlState}
    (h : form.Prepared binding input numbers edit control)
    (hr : edit.replacement = none) (hb : edit.nextParseBlocker = none) :
    ∃ v w, parseText numbers.parser control.definition.kind input numbers.maximumDigits =
      some (.ok v) ∧ binding.resolve form.formData = some w ∧ jsonValuesEqual v w = true := by
  rcases h.parsed with ⟨v, hp, _, hr'⟩ | ⟨b, _, hb', _⟩
  · rw [hr] at hr'
    split at hr'
    · rename_i hu
      cases hc : binding.resolve form.formData with
      | none => rw [hc] at hu; cases hk : control.definition.kind <;> simp [hk, textUnchanged] at hu
      | some w =>
        refine ⟨v, w, hp, rfl, ?_⟩
        rw [hc] at hu
        cases hk : control.definition.kind with
        | string =>
          rw [hk] at hu
          simp only [textUnchanged, beq_iff_eq] at hu
          rw [hu]
          exact jsonValuesEqual_refl v
        | number =>
          rw [hk] at hp hu
          obtain ⟨lit, rfl, _⟩ := parseNumber_number (Option.some.inj hp)
          exact jsonValuesEqual_of_numbersEqual hu
        | integer =>
          rw [hk] at hp hu
          obtain ⟨lit, rfl, _⟩ := parseIntegerWithLimit_number (Option.some.inj hp)
          exact jsonValuesEqual_of_numbersEqual hu
        | _ => rw [hk] at hp; cases hp
    · cases hr'
  · rw [hb] at hb'
    cases hb'

section Preserved

variable {definition : FormDefinition} {numbers : NumberInput} {form form' : Form}
    {binding : Pointer}

theorem editText_refused {parser : JsonParser} {input : String} {maximumDigits : Nat}
    {e : EditError}
    (h : form.editTextWithIntegerDigitLimit parser binding input maximumDigits =
      (form', .error e)) : form' = form := by
  let numbers : NumberInput := ⟨parser, maximumDigits⟩
  have hnumbers : form.editTextWithIntegerDigitLimit numbers.parser binding input
      numbers.maximumDigits = (form', .error e) := h
  rcases editText_cases hnumbers with ⟨heq, _⟩ | ⟨hok, _⟩
  · exact heq
  · cases hok

theorem editText_inv {input : String} {r : Except EditError Unit} (hd : definition.WellFormed)
    (hinv : form.Inv definition numbers)
    (h : form.editTextWithIntegerDigitLimit numbers.parser binding input numbers.maximumDigits =
      (form', r)) :
    form'.Inv definition numbers := by
  rcases editText_cases h with ⟨rfl, _⟩ | ⟨_, edit, control, formData, hprep, hfd, rfl⟩
  · exact hinv
  · have hkey : ({ form with formData }.modifyControl (fun control =>
        { control with editBuffer := some input, parseBlocker := edit.nextParseBlocker })
        edit.location).Inv definition numbers := by
      rcases hfd with ⟨hr, rfl⟩ | ⟨v, hr, hset⟩
      · refine Inv.writeControl hd hinv hprep.found hinv.formData_wf (.inl rfl) _ (fun _ => rfl) ?_
        refine ⟨fun _ => hprep.textual, fun b hb => ?_, fun text ht hb => ?_⟩
        · rcases hprep.parsed with ⟨_, _, hb', _⟩ | ⟨b', hp, hb', _⟩
          · rw [show edit.nextParseBlocker = some b from hb] at hb'
            cases hb'
          · rw [show edit.nextParseBlocker = some b from hb] at hb'
            cases hb'
            exact ⟨input, rfl, hp⟩
        · cases ht
          exact hprep.same hr hb
      · obtain ⟨hp, hb, _⟩ := hprep.not_same hr
        have hw := setBoundValue_write hset
        refine Inv.writeControl hd hinv hprep.found
          (setBoundValue_wf hinv.formData_wf (parseText_wf hp) hset) (.inr ⟨v, hw⟩) _
          (fun _ => rfl) ?_
        refine ⟨fun _ => hprep.textual, fun b hb' => ?_, fun text ht _ => ?_⟩
        · rw [show edit.nextParseBlocker = some b from hb'] at hb
          cases hb
        · cases ht
          exact ⟨v, v, hp, hw.at_self, jsonValuesEqual_refl v⟩
    refine hkey.of_eq rfl rfl rfl rfl rfl rfl ?_
    simp [advance, hinv.batches]

theorem editText_data {input : String} {r : Except EditError Unit}
    (hinv : form.Inv definition numbers)
    (h : form.editTextWithIntegerDigitLimit numbers.parser binding input numbers.maximumDigits =
      (form', r)) :
    form.DataExact form' := by
  rcases editText_cases h with ⟨rfl, _⟩ | ⟨_, edit, control, formData, hprep, hfd, rfl⟩
  · exact .of_eq rfl rfl
  · rcases hfd with ⟨hr, rfl⟩ | ⟨v, hr, hset⟩
    · refine .of_eq (by simp) ?_
      simp [advance, hr]
    · obtain ⟨hp, _, hne⟩ := hprep.not_same hr
      refine .of_ne ?_ (by simp [advance, hr])
      rw [advance_formData, modifyControl_formData]
      exact (setBoundValue_write hset).not_equal hinv.formData_wf
        (setBoundValue_wf hinv.formData_wf (parseText_wf hp) hset) hne

theorem modify_eq_self {α : Type} {f : α → α} {l : List α} {i : Nat} {a : α} (h : l[i]? = some a)
    (hf : f a = a) : l.modify i f = l := by
  refine List.ext_getElem? fun j => ?_
  rw [List.getElem?_modify]
  by_cases hij : i = j
  · subst hij
    simp [h, hf]
  · simp [hij]

/-- An edit that leaves the control as it is leaves the form as it is. -/
theorem modifyControl_eq_self {control : ControlState} {location : ControlLocation}
    {edit : ControlState → ControlState} (hat : form.At binding control location)
    (he : edit control = control) : form.modifyControl edit location = form := by
  cases location with
  | static i => simp only [modifyControl, modify_eq_self hat.1 he]
  | arrayItem a i k =>
    obtain ⟨array, item, ha, hi, hk, _⟩ := hat
    have hitem : { item with controls := item.controls.modify k edit } = item := by
      rw [modify_eq_self hk he]
    have harray : { array with items := array.items.modify i fun item =>
        { item with controls := item.controls.modify k edit } } = array := by
      rw [modify_eq_self hi hitem]
    have harrays := modify_eq_self (f := fun array : ArrayState =>
      { array with items := array.items.modify i fun item =>
        { item with controls := item.controls.modify k edit } }) ha harray
    simp only [modifyControl, harrays]

theorem editText_state {input : String} {r : Except EditError Unit}
    (h : form.editTextWithIntegerDigitLimit numbers.parser binding input numbers.maximumDigits =
      (form', r)) :
    form.StateExact form' := by
  rcases editText_cases h with ⟨rfl, _⟩ | ⟨_, edit, control, formData, hprep, hfd, rfl⟩
  · exact .refl form'
  · rcases hfd with ⟨hr, rfl⟩ | ⟨v, hr, hset⟩
    · cases hch : (control.editBuffer != some input ||
          control.parseBlocker != edit.nextParseBlocker) with
      | true => exact .inr (by simp [advance])
      | false =>
        refine .inl ?_
        rw [hr, Option.isSome_none, advance_false]
        refine modifyControl_eq_self hprep.found ?_
        simp only [Bool.or_eq_false_iff, bne_eq_false_iff_eq] at hch
        rw [← hch.1, ← hch.2]
    · exact .inr (by simp [advance, hr])

/-! ## Values -/

theorem canonicalChoice_wf {control : ControlDefinition} {value : Value} (hv : value.WF)
    (hc : ∀ v ∈ control.choices, v.WF) : (canonicalChoice control value).WF := by
  unfold canonicalChoice
  cases hf : control.choices.find? (jsonValuesEqual · value) with
  | none => exact hv
  | some c => exact hc c (List.mem_of_find?_eq_some hf)

theorem setValue_cases {value : Value} {r : Except EditError Unit}
    (h : form.setValue binding value = (form', r)) :
    (form' = form ∧ ∃ e, r = .error e) ∨
    (r = .ok () ∧ ∃ control location, form.At binding control location ∧
      controlValueIsCompatible control.definition value = true ∧
      ((form' = form ∧ (binding.resolve form.formData).any
          (jsonValuesEqual · (canonicalChoice control.definition value)) = true) ∨
        ∃ formData, (binding.resolve form.formData).any
          (jsonValuesEqual · (canonicalChoice control.definition value)) = false ∧
        setBoundValue binding (canonicalChoice control.definition value) form.formData =
          some formData ∧
        form' = ({ form with formData }.modifyControl ControlState.clearEditState
          location).dataChanged)) := by
  simp only [setValue] at h
  split at h
  · cases h; exact .inl ⟨rfl, _, rfl⟩
  · rename_i location hloc
    obtain ⟨control, hat⟩ := controlLocation_at hloc
    rw [controlState_of_at hat] at h
    dsimp only at h
    split at h
    · cases h; exact .inl ⟨rfl, _, rfl⟩
    · rename_i hcompat
      have hcompat : controlValueIsCompatible control.definition value = true := by
        simpa using hcompat
      split at h
      · rename_i hsame
        cases h
        exact .inr ⟨rfl, control, location, hat, hcompat, .inl ⟨rfl, hsame⟩⟩
      · rename_i hne
        split at h
        · cases h; exact .inl ⟨rfl, _, rfl⟩
        · rename_i formData hset
          cases h
          exact .inr ⟨rfl, control, location, hat, hcompat,
            .inr ⟨formData, by simpa using hne, hset, rfl⟩⟩

theorem not_sameValue_of_any {current : Option Value} {value : Value}
    (h : current.any (jsonValuesEqual · value) = false) : ¬ SameValue current (some value) := by
  intro hs
  cases hs with
  | some heq => simp [heq] at h

theorem setValue_inv {value : Value} {r : Except EditError Unit} (hd : definition.WellFormed)
    (hinv : form.Inv definition numbers) (hv : value.WF)
    (h : form.setValue binding value = (form', r)) : form'.Inv definition numbers := by
  rcases setValue_cases h with ⟨rfl, _⟩ | ⟨_, control, location, hat, _, ⟨rfl, _⟩ | ⟨formData, _,
    hset, rfl⟩⟩
  · exact hinv
  · exact hinv
  · have hwf := canonicalChoice_wf hv (hat.definition_choices hd hinv.shaped)
    have hkey := Inv.writeControl hd hinv hat (setBoundValue_wf hinv.formData_wf hwf hset)
      (.inr ⟨_, setBoundValue_write hset⟩) ControlState.clearEditState (fun _ => rfl)
      (ControlCoherent.clearEditState control)
    exact hkey.of_eq rfl rfl rfl rfl rfl rfl rfl

theorem setValue_data {value : Value} {r : Except EditError Unit} (hd : definition.WellFormed)
    (hinv : form.Inv definition numbers) (hv : value.WF)
    (h : form.setValue binding value = (form', r)) : form.DataExact form' := by
  rcases setValue_cases h with ⟨rfl, _⟩ | ⟨_, control, location, hat, _, ⟨rfl, _⟩ | ⟨formData, hne,
    hset, rfl⟩⟩
  · exact .of_eq rfl rfl
  · exact .of_eq rfl rfl
  · have hwf := canonicalChoice_wf hv (hat.definition_choices hd hinv.shaped)
    refine .of_ne ?_ (by simp [dataChanged, advance])
    rw [dataChanged, advance_formData, modifyControl_formData]
    exact (setBoundValue_write hset).not_equal hinv.formData_wf
      (setBoundValue_wf hinv.formData_wf hwf hset) (not_sameValue_of_any hne)

theorem setValue_state {value : Value} {r : Except EditError Unit}
    (h : form.setValue binding value = (form', r)) : form.StateExact form' := by
  rcases setValue_cases h with ⟨rfl, _⟩ | ⟨_, _, _, _, _, ⟨rfl, _⟩ | ⟨_, _, _, rfl⟩⟩
  · exact .refl form'
  · exact .refl form'
  · exact .inr (by simp [dataChanged, advance])

/-! ## Touching -/

def touchControl (control : ControlState) : ControlState :=
  { control.finalizeEditBuffer with touched := true }

theorem blur_cases {r : Except EditError Unit} (h : form.blur binding = (form', r)) :
    (form' = form ∧ ∃ e, r = .error e) ∨
    (r = .ok () ∧ ∃ control location, form.At binding control location ∧
      form' = (form.modifyControl touchControl location).advance false
        (control.canFinalize || !control.touched)) ∨
    (r = .ok () ∧ ∃ index array, form.arrays[index]? = some array ∧
      array.definition.binding = binding ∧ array.definition.isMultipleChoice = true ∧
      ((array.touched = true ∧ form' = form) ∨
        array.touched = false ∧ form' = { form with
          arrays := form.arrays.modify index fun array =>
            { array with touched := true } }.advance false true)) := by
  simp only [blur] at h
  split at h
  · simp only [blurArray] at h
    split at h
    · cases h; exact .inl ⟨rfl, _, rfl⟩
    · rename_i index hindex
      split at h
      · cases h; exact .inl ⟨rfl, _, rfl⟩
      · rename_i array harray
        obtain ⟨array', ha', hb⟩ := findIdx?_some hindex
        obtain ⟨ha, hmc⟩ := Option.filter_eq_some_iff.mp harray
        obtain rfl := Option.some.inj (ha'.symm.trans ha)
        refine .inr (.inr ?_)
        split at h
        · rename_i ht
          cases h
          exact ⟨rfl, index, _, ha, by simpa using hb, hmc, .inl ⟨ht, rfl⟩⟩
        · rename_i ht
          cases h
          exact ⟨rfl, index, _, ha, by simpa using hb, hmc, .inr ⟨by simpa using ht, rfl⟩⟩
  · rename_i location hloc
    obtain ⟨control, hat⟩ := controlLocation_at hloc
    rw [controlState_of_at hat] at h
    cases h
    exact .inr (.inl ⟨rfl, control, location, hat, rfl⟩)

theorem finalizeEditBuffer_definition (control : ControlState) :
    control.finalizeEditBuffer.definition = control.definition := by
  unfold ControlState.finalizeEditBuffer
  split <;> rfl

theorem map_items_modify_touched (arrays : List ArrayState) (index : Nat) :
    (arrays.modify index fun array => { array with touched := true }).map
      (fun a => (a.definition, a.items)) = arrays.map fun a => (a.definition, a.items) := by
  refine ListEdit.map_modify ?_ index arrays
  intro _; rfl

theorem blur_refused {e : EditError} (h : form.blur binding = (form', .error e)) :
    form' = form := by
  rcases blur_cases h with ⟨heq, _⟩ | ⟨hok, _⟩ | ⟨hok, _⟩
  · exact heq
  · cases hok
  · cases hok

theorem blur_inv {r : Except EditError Unit} (hd : definition.WellFormed)
    (hinv : form.Inv definition numbers) (h : form.blur binding = (form', r)) :
    form'.Inv definition numbers := by
  rcases blur_cases h with ⟨rfl, _⟩ | ⟨_, control, location, hat, rfl⟩ |
    ⟨_, index, array, ha, _, _, ⟨_, rfl⟩ | ⟨_, rfl⟩⟩
  · exact hinv
  · have hold := (coherent_iff.mp hinv.coherent).1 _ (mem_boundControls_of_at hat)
    have hkey := Inv.writeControl hd hinv hat hinv.formData_wf (.inl rfl) touchControl
      finalizeEditBuffer_definition hold.finalizeEditBuffer.touch
    exact hkey.of_eq rfl rfl rfl rfl rfl rfl hkey.batches
  · exact hinv
  · have hkey := hinv.of_items (map_items_modify_touched form.arrays index)
    exact hkey.of_eq rfl rfl rfl rfl rfl rfl hkey.batches

theorem blur_data {r : Except EditError Unit} (h : form.blur binding = (form', r)) :
    form.DataExact form' := by
  rcases blur_cases h with ⟨rfl, _⟩ | ⟨_, _, _, _, rfl⟩ | ⟨_, _, _, _, _, _, ⟨_, rfl⟩ | ⟨_, rfl⟩⟩
  · exact .of_eq rfl rfl
  · exact .of_eq (by simp) (by simp [advance])
  · exact .of_eq rfl rfl
  · exact .of_eq rfl rfl

theorem blur_state {r : Except EditError Unit} (h : form.blur binding = (form', r)) :
    form.StateExact form' := by
  rcases blur_cases h with ⟨rfl, _⟩ | ⟨_, control, location, hat, rfl⟩ |
    ⟨_, _, _, _, _, _, ⟨_, rfl⟩ | ⟨_, rfl⟩⟩
  · exact .refl form'
  · cases hch : control.canFinalize || !control.touched with
    | true => exact .inr (by simp [advance])
    | false =>
      refine .inl ?_
      rw [advance_false]
      refine modifyControl_eq_self hat ?_
      simp only [Bool.or_eq_false_iff, Bool.not_eq_false'] at hch
      obtain ⟨definition, buffer, blocker, touched⟩ := control
      obtain ⟨hf, rfl⟩ := hch
      cases blocker <;> cases buffer <;>
        simp_all [touchControl, ControlState.finalizeEditBuffer, ControlState.canFinalize]
  · exact .refl form'
  · exact .inr rfl

/-! ## Steps -/

theorem pool_eq_step (hinv : form.Inv definition numbers) (h : form'.pool = form.pool) :
    IdentityPool.Step form.pool form'.pool := by
  rw [h]
  exact .refl hinv.pool

theorem editText_step {input : String} {r : Except EditError Unit} (hd : definition.WellFormed)
    (hinv : form.Inv definition numbers)
    (h : form.editTextWithIntegerDigitLimit numbers.parser binding input numbers.maximumDigits =
      (form', r)) :
    form.Step definition numbers form' := by
  refine ⟨editText_inv hd hinv h, pool_eq_step hinv ?_, editText_state h⟩
  rcases editText_cases h with ⟨rfl, _⟩ | ⟨_, edit, _, _, _, _, rfl⟩
  · rfl
  · exact modifyControl_pool _ _ edit.location

theorem setValue_step {value : Value} {r : Except EditError Unit} (hd : definition.WellFormed)
    (hinv : form.Inv definition numbers) (hv : value.WF)
    (h : form.setValue binding value = (form', r)) : form.Step definition numbers form' := by
  refine ⟨setValue_inv hd hinv hv h, pool_eq_step hinv ?_, setValue_state h⟩
  rcases setValue_cases h with ⟨rfl, _⟩ | ⟨_, _, location, _, _, ⟨rfl, _⟩ | ⟨_, _, _, rfl⟩⟩
  · rfl
  · rfl
  · exact modifyControl_pool _ _ location

theorem blur_step {r : Except EditError Unit} (hd : definition.WellFormed)
    (hinv : form.Inv definition numbers) (h : form.blur binding = (form', r)) :
    form.Step definition numbers form' := by
  refine ⟨blur_inv hd hinv h, pool_eq_step hinv ?_, blur_state h⟩
  rcases blur_cases h with ⟨rfl, _⟩ | ⟨_, _, location, _, rfl⟩ |
    ⟨_, index, _, _, _, _, ⟨_, rfl⟩ | ⟨_, rfl⟩⟩
  · rfl
  · exact modifyControl_pool _ _ location
  · rfl
  · have hids : (form.arrays.modify index fun array => { array with touched := true }).map
        ArrayState.identities = form.arrays.map ArrayState.identities := by
      refine ListEdit.map_modify ?_ index form.arrays
      intro _; rfl
    exact congrArg (fun l => IdentityPool.mk (List.flatten l) _ _) hids

end Preserved

end Form

end Schemaform.Engine
