import Schemaform.Engine.Buffered
import Schemaform.Engine.Items
import Schemaform.Form.Reachable
import Schemaform.Form.Scan
import Schemaform.Form.Size

/-!
# Form.Bounds

The limits of a form hold in every state it reaches.

* `Admits`: data that pass the scan and the tree check.
* `Thinned`: an array lost items or has them in another order. Nobody checks that.
* `Bounded`: the invariant, with the baseline a reset returns to.
* `limits_hold`: after any operations on a built form.
-/

namespace Schemaform

open ListEdit (swap swap_perm)

namespace Form

variable {form form' : Form} {engine : Engine.Form} {binding : Pointer}

/-! ## Admitted data -/

def Admits (form : Form) (formData : Value) : Prop :=
  Admitted form.limits.inputLimits formData ∧
  (form.definition.inner.initialTreeMetrics formData).1 ≤ form.limits.maxFormTreeNodes ∧
  (form.definition.inner.initialTreeMetrics formData).2 ≤ form.limits.maxRepeatedItems

theorem checkInput_eq_ok {value : Value} {limits : FormDataLimits} {phase : ResourceLimitPhase}
    {u : Unit} (h : checkInput value limits phase binding = .ok u) :
    Admitted limits.inputLimits value := by
  unfold checkInput at h
  split at h
  · cases h
  · rename_i hc
    exact checkInputValue_iff.mp hc

theorem checkFormTree_eq_ok {definition : FormDefinition} {value : Value} {limits : FormDataLimits}
    {phase : ResourceLimitPhase} {u : Unit}
    (h : checkFormTree definition value limits phase = .ok u) :
    (definition.inner.initialTreeMetrics value).1 ≤ limits.maxFormTreeNodes ∧
    (definition.inner.initialTreeMetrics value).2 ≤ limits.maxRepeatedItems := by
  unfold checkFormTree at h
  dsimp only at h
  split at h
  · cases h
  · rename_i hitems
    split at h
    · cases h
    · rename_i hnodes
      exact ⟨Nat.le_of_not_lt hnodes, Nat.le_of_not_lt hitems⟩

theorem admits_of_checkRuntime {value : Value} {u : Unit}
    (h : checkRuntimeFormData form.definition value form.limits = .ok u) : form.Admits value := by
  obtain ⟨_, hinput, htree⟩ := bind_eq_ok.mp h
  exact ⟨checkInput_eq_ok hinput, checkFormTree_eq_ok htree⟩

theorem admits_of_checkCandidate {value : Value} {u : Unit}
    (h : form.checkCandidate value = .ok u) : form.Admits value :=
  admits_of_checkRuntime (mapError_eq_ok.mp h)

theorem Admits.congr {value : Value} (h : form.Admits value)
    (hd : form'.definition = form.definition) (hl : form'.limits = form.limits) :
    form'.Admits value := by
  unfold Admits
  rw [hd, hl]
  exact h

/-- The earlier spelling of admitted data. -/
theorem Admits.preserve {current candidate : Value} (hc : form.Admits current)
    (h : form.Admits candidate) (hcwf : current.WF) (hwf : candidate.WF) :
    form.Admits (preserveSemanticallyEqualValues current candidate) := by
  obtain ⟨hpwf, heq⟩ := preserve_respells hcwf hwf
  refine ⟨admitted_preserve hc.1 h.1 hcwf hwf, ?_⟩
  rw [form.definition.inner.initialTreeMetrics_congr hwf hpwf heq]
  exact h.2

/-! ## Fewer items, or the same in another order -/

/-- Some of an array's values in any order. -/
def Thinned (form : Form) (formData : Value) : Prop :=
  ∃ array ∈ form.engine.arrays, ∃ edit : List Value → List Value,
    (∀ values, (edit values).Subperm values) ∧
    array.definition.binding.modify (Engine.editItems edit) form.formData = some formData

theorem removeArrayItem_thinned {identity : Nat} {removed : Engine.RemovedArrayItem}
    (h : form.engine.removeArrayItem binding identity = (engine, .ok removed)) :
    form.Thinned engine.formData := by
  obtain ⟨_, array, position, _, hs⟩ := Engine.Form.removeArrayItem_step h
  exact ⟨array, (Engine.Form.array_mem hs.array_eq).1, fun values => values.eraseIdx position,
    fun values => (List.eraseIdx_sublist values position).subperm, hs.data⟩

theorem moveArrayItem_thinned {direction : Engine.ArrayMove} {identity : Nat}
    {moved : Engine.MovedArrayItem}
    (h : Engine.Form.moveArrayItem direction form.engine binding identity = (engine, .ok moved)) :
    form.Thinned engine.formData := by
  obtain ⟨_, array, source, destination, _, _, hs⟩ := Engine.Form.moveArrayItem_step h
  exact ⟨array, (Engine.Form.array_mem hs.array_eq).1, fun values => swap values source destination,
    fun values => (swap_perm values source destination).subperm, hs.data⟩

theorem Thinned.admits {formData : Value} (hinv : form.Inv) (ht : form.Thinned formData)
    (h : form.Admits form.formData) : form.Admits formData := by
  obtain ⟨array, harray, edit, hedit, hm⟩ := ht
  have hlarger : NoLarger formData form.formData := by
    refine noLarger_modify (fun c c' _ hc => ?_) hm
    cases c with
    | array values =>
      cases hc
      exact noLarger_array (hedit values)
    | _ => cases hc
  obtain ⟨values, hv, hw⟩ := Engine.editItems_write hm
  suffices hcount : ∀ node ∈ form.definition.inner.arrayNodes,
      node.itemCount formData ≤ node.itemCount form.formData by
    obtain ⟨hnodes, hitems⟩ := form.definition.inner.initialTreeMetrics_mono hcount
    exact ⟨h.1.of_noLarger hlarger, hnodes.trans h.2.1, hitems.trans h.2.2⟩
  intro node hnode
  obtain ⟨hmem, hk⟩ := form.inner_wf.mem_arrayNodes.mp hnode
  obtain ⟨_, other, hother, hb, _⟩ := form.inner_wf.array_node hmem hk
  obtain ⟨state, hstate, rfl⟩ : ∃ state ∈ form.engine.arrays, state.definition = other := by
    rw [← hinv.shaped.arrays] at hother
    exact List.mem_map.mp hother
  unfold DefinitionNode.itemCount
  rw [hb, Option.map_some, Option.map_some, Option.getD_some, Option.getD_some]
  obtain ⟨i, hi⟩ := List.mem_iff_getElem?.mp harray
  obtain ⟨j, hj⟩ := List.mem_iff_getElem?.mp hstate
  by_cases hij : i = j
  · subst hij
    obtain rfl := Option.some.inj (hi.symm.trans hj)
    rw [Engine.arrayValues, Engine.arrayValues, hw.at_self, hv]
    exact (hedit values).length_le
  · have hapart := hinv.shaped.arrays_apart form.engine_wf hi hj hij
    exact le_of_eq (congrArg List.length (Engine.Form.arrayValues_apart hw hapart))

/-! ## Checked candidates -/

theorem candidateEngine_admits {α : Type} {edit : EngineEdit α} {a : α}
    (h : form.candidateEngine binding edit = .ok (engine, a)) : form.Admits engine.formData := by
  unfold candidateEngine at h
  split at h
  · cases h
  · obtain ⟨_, hc, heq⟩ := bind_eq_ok.mp h
    cases heq
    exact admits_of_checkCandidate hc

/-- A call that ends early, or leaves data that were checked. -/
def Checked (form form' : Form) : Prop := form' = form ∨ form.Admits form'.formData

theorem attempt_checked {α β ε : Type} {check : Except ε α} {next : α → Form × Except ε β}
    {r : Except ε β} (h : attempt form check next = (form', r))
    (hnext : ∀ a, check = .ok a → next a = (form', r) → form.Checked form') :
    form.Checked form' := by
  rcases attempt_cases h with hr | ⟨a, ha, h⟩
  · exact .inl hr.1
  · exact hnext a ha h

section Operations

variable {target array : InstanceIdentity} {value : Value} {r : Except UserOperationError Transition}

theorem applyScalarEdit_checked {edit : EngineEdit Unit}
    (h : form.applyScalarEdit target binding edit = (form', r)) : form.Checked form' := by
  refine attempt_checked h fun a hc h => ?_
  cases h
  refine .inr ?_
  rw [formData, settle_engine]
  exact candidateEngine_admits hc

theorem applyStructuralEdit_checked {edit : EngineEdit Unit}
    (h : form.applyStructuralEdit binding edit = (form', r)) : form.Checked form' := by
  refine attempt_checked h fun a hc h => ?_
  cases h
  refine .inr ?_
  rw [formData, settle_engine]
  exact candidateEngine_admits hc

theorem setValue_checked (h : form.setValue target value = (form', r)) : form.Checked form' :=
  attempt_checked h fun _ _ h => attempt_checked h fun _ _ h => applyScalarEdit_checked h

theorem setNull_checked (h : form.setNull target = (form', r)) : form.Checked form' :=
  attempt_checked h fun _ _ h => applyScalarEdit_checked h

theorem removeValue_checked (h : form.removeValue target = (form', r)) : form.Checked form' := by
  refine attempt_checked h fun _ _ h => ?_
  split at h
  · exact applyStructuralEdit_checked h
  · exact applyScalarEdit_checked h

theorem replaceValue_checked (h : form.replaceValue target value = (form', r)) :
    form.Checked form' := by
  refine attempt_checked h fun _ _ h => ?_
  dsimp only at h
  split at h
  · exact attempt_checked h fun _ _ h => applyStructuralEdit_checked h
  · exact attempt_checked h fun _ _ h => applyScalarEdit_checked h

theorem materialize_checked (h : form.materialize target = (form', r)) : form.Checked form' :=
  attempt_checked h fun _ _ h => attempt_checked h fun _ _ h => applyStructuralEdit_checked h

theorem appendItem_checked (h : form.appendItem array = (form', r)) : form.Checked form' := by
  refine attempt_checked h fun _ _ h => attempt_checked h fun _ _ h => ?_
  refine attempt_checked h fun _ hc h => ?_
  cases h
  exact .inr (candidateEngine_admits hc)

theorem insertItemBefore_checked {before : ItemIdentity}
    (h : form.insertItemBefore array before = (form', r)) : form.Checked form' := by
  refine attempt_checked h fun _ _ h => attempt_checked h fun _ _ h => ?_
  refine attempt_checked h fun _ _ h => attempt_checked h fun _ hc h => ?_
  cases h
  exact .inr (candidateEngine_admits hc)

theorem toggleChoice_checked (h : form.toggleChoice array value = (form', r)) :
    form.Checked form' := by
  refine attempt_checked h fun _ _ h => attempt_checked h fun _ _ h => ?_
  refine attempt_checked h fun _ _ h => attempt_checked h fun _ hc h => ?_
  cases h
  exact .inr (candidateEngine_admits hc)

end Operations

/-! ## The invariant -/

structure BuffersWithin (form : Form) : Prop where
  buffer : ∀ buffer ∈ form.engine.buffers, buffer.utf8ByteSize ≤ form.limits.maxEditBufferBytes
  active : form.engine.buffers.length ≤ form.limits.maxActiveEditBuffers
  total : form.engine.bufferBytes ≤ form.limits.maxTotalEditBufferBytes

structure Bounded (form : Form) : Prop where
  formData : form.Admits form.formData
  baseline : form.Admits form.engine.baseline
  buffers : form.BuffersWithin

theorem BuffersWithin.of_subperm (h : form.BuffersWithin) (hl : form'.limits = form.limits)
    (hsub : form'.engine.buffers.Subperm form.engine.buffers) : form'.BuffersWithin where
  buffer := by
    rw [hl]
    exact fun buffer hbuffer => h.buffer buffer (hsub.subset hbuffer)
  active := by
    rw [hl]
    exact hsub.length_le.trans h.active
  total := by
    rw [hl]
    obtain ⟨middle, hperm, hmiddle⟩ := hsub
    refine le_trans ?_ h.total
    unfold Engine.Form.bufferBytes
    rw [← (hperm.map _).sum_eq]
    exact (hmiddle.map String.utf8ByteSize).sum_le_sum fun _ _ => Nat.zero_le _

/-- An edit that only drops buffers. -/
theorem Bounded.of_from (h : form.Bounded) (he : form.Effect form')
    (hdata : form.Admits form'.formData) (hfrom : form.engine.BuffersFrom form'.engine) :
    form'.Bounded where
  formData := hdata.congr he.definition he.limits
  baseline := hfrom.baseline ▸ h.baseline.congr he.definition he.limits
  buffers := h.buffers.of_subperm he.limits
    (Engine.Form.buffers_subperm hfrom (Engine.Form.Inv.identities_nodup he.inv))

/-! ## Typing -/

theorem checkBound_eq_ok {dimension : String} {maximum observed : Nat} {u : Unit}
    (h : checkBound dimension maximum observed binding = .ok u) : observed ≤ maximum := by
  unfold checkBound at h
  split at h
  · cases h
  · rename_i hle
    exact Nat.le_of_not_lt hle

/-- The data a text edit leaves are the ones it was checked for. -/
theorem editText_formData {parser : Engine.JsonParser} {input : String} {maximumDigits : Nat}
    {candidate : Option Value}
    (hc : form.engine.prospectiveTextFormData parser binding input maximumDigits = .ok candidate)
    (h : form.engine.editTextWithIntegerDigitLimit parser binding input maximumDigits =
      (engine, .ok ())) :
    engine.formData = candidate.getD form.formData := by
  obtain ⟨edit, he, hc⟩ := bind_eq_ok.mp hc
  simp only [Engine.Form.editTextWithIntegerDigitLimit, he] at h
  cases hr : edit.replacement with
  | none =>
    rw [hr] at hc h
    cases hc
    cases h
    exact Engine.Form.modifyControl_formData _ _ _
  | some value =>
    rw [hr] at hc h
    dsimp only at hc h
    split at h
    · cases h
    · rename_i formData hset
      rw [hset] at hc
      cases hc
      cases h
      exact Engine.Form.modifyControl_formData _ _ _

theorem inputText_bounded (hinv : form.Inv) (hb : form.Bounded) {target : InstanceIdentity}
    {text : String} {r : Except UserOperationError Transition}
    (h : form.inputText target text = (form', r)) : form'.Bounded := by
  have heffect := inputText_effect hinv h
  rcases attempt_cases h with hr | ⟨binding, hc, h⟩
  · exact hr.1 ▸ hb
  dsimp only at h
  split at h
  · rename_i engine e he
    cases h
    rw [Engine.Form.editText_refused he]
    exact hb
  rename_i engine he
  cases h
  obtain ⟨binding', _, hc⟩ := bind_eq_ok.mp hc
  obtain ⟨_, htext, hc⟩ := bind_eq_ok.mp hc
  obtain ⟨⟨active, bytes⟩, hmetrics, hc⟩ := bind_eq_ok.mp hc
  obtain ⟨_, hactive, hc⟩ := bind_eq_ok.mp hc
  obtain ⟨_, htotal, hc⟩ := bind_eq_ok.mp hc
  obtain ⟨candidate, hcandidate, hc⟩ := bind_eq_ok.mp hc
  have hadmits : binding' = binding ∧ form.Admits (candidate.getD form.formData) := by
    cases candidate with
    | none => cases hc; exact ⟨rfl, hb.formData⟩
    | some candidate =>
      obtain ⟨_, hcheck, hc⟩ := bind_eq_ok.mp hc
      cases hc
      exact ⟨rfl, admits_of_checkCandidate hcheck⟩
  obtain ⟨rfl, hadmits⟩ := hadmits
  have hdata := editText_formData (mapError_eq_ok.mp hcandidate) he
  have hedited : form.engine.editTextWithIntegerDigitLimit form.numbers.parser binding' text
      form.numbers.maximumDigits = (engine, .ok ()) := he
  obtain ⟨hexact, hmem⟩ := Engine.Form.editText_buffers form.engine_wf hinv.shaped hedited
  rw [mapError_eq_ok.mp hmetrics] at hexact
  cases hexact
  have hlimits := heffect.limits
  have hengine := settle_engine form engine
  refine ⟨?_, ?_, ?_, ?_, ?_⟩
  · rw [formData, hengine, hdata]
    exact hadmits.congr heffect.definition hlimits
  · rw [hengine, Engine.Form.editText_baseline hedited]
    exact hb.baseline.congr heffect.definition hlimits
  · rw [hengine, hlimits]
    intro buffer hbuffer
    rcases hmem buffer hbuffer with rfl | hold
    · exact checkBound_eq_ok htext
    · exact hb.buffers.buffer buffer hold
  · rw [hengine, hlimits]
    exact checkBound_eq_ok hactive
  · rw [hengine, hlimits]
    exact checkBound_eq_ok htotal

/-! ## Every other operation -/

theorem Bounded.of_checked (hb : form.Bounded) (he : form.Effect form') (hc : form.Checked form')
    (hengine : form'.engine = engine) (hfrom : form.engine.BuffersFrom engine) :
    form'.Bounded := by
  rcases hc with rfl | hadmits
  · exact hb
  · exact hb.of_from he hadmits (hengine ▸ hfrom)

section Users

variable {target array : InstanceIdentity} {value : Value} {r : Except UserOperationError Transition}

theorem blur_bounded (hinv : form.Inv) (hb : form.Bounded)
    (h : form.blur target = (form', r)) : form'.Bounded := by
  have heffect := blur_effect hinv h
  rcases blur_cases h with hr | ⟨node, binding, engine, _, _, _, _, he, rfl, _⟩
  · exact hr.1 ▸ hb
  refine hb.of_from heffect ?_ (Engine.Form.blur_buffers he)
  have hdata : engine.formData = form.engine.formData := by
    rcases Engine.Form.blur_cases he with ⟨rfl, _⟩ | ⟨_, _, _, _, rfl⟩ |
      ⟨_, _, _, _, _, _, ⟨_, rfl⟩ | ⟨_, rfl⟩⟩
    · rfl
    · exact Engine.Form.modifyControl_formData _ _ _
    · rfl
    · rfl
  rw [formData, hdata]
  exact hb.formData

theorem setValue_bounded (hinv : form.Inv) (hb : form.Bounded) (hv : value.WF)
    (h : form.setValue target value = (form', r)) : form'.Bounded := by
  have hc := setValue_checked h
  have heffect := setValue_effect hinv hv h
  rcases setValue_cases h with hr | ⟨_, _, ⟨_, he⟩, rfl, _⟩
  · exact hr.1 ▸ hb
  · exact hb.of_checked heffect hc (settle_engine form _) (Engine.Form.setValue_buffers he)

theorem setNull_bounded (hinv : form.Inv) (hb : form.Bounded)
    (h : form.setNull target = (form', r)) : form'.Bounded := by
  have hc := setNull_checked h
  have heffect := setNull_effect hinv h
  rcases setNull_cases h with hr | ⟨_, _, ⟨_, he⟩, rfl, _⟩
  · exact hr.1 ▸ hb
  · exact hb.of_checked heffect hc (settle_engine form _) (Engine.Form.setValue_buffers he)

theorem removeValue_bounded (hinv : form.Inv) (hb : form.Bounded)
    (h : form.removeValue target = (form', r)) : form'.Bounded := by
  have hc := removeValue_checked h
  have heffect := removeValue_effect hinv h
  rcases removeValue_cases h with hr | ⟨_, engine, ⟨_, he⟩, hs⟩
  · exact hr.1 ▸ hb
  · refine hb.of_checked heffect hc ?_ (Engine.Form.removeValue_buffers he)
    rw [hs.form_eq, settle_engine]

theorem replaceValue_bounded (hinv : form.Inv) (hb : form.Bounded) (hv : value.WF)
    (h : form.replaceValue target value = (form', r)) : form'.Bounded := by
  have hc := replaceValue_checked h
  have heffect := replaceValue_effect hinv hv h
  rcases replaceValue_cases h with hr | ⟨_, engine, ⟨_, he⟩, hs⟩
  · exact hr.1 ▸ hb
  · have hengine : form'.engine = engine := by rw [hs.form_eq, settle_engine]
    refine hb.of_checked heffect hc hengine ?_
    unfold replaceEdit at he
    split at he
    · exact Engine.Form.replaceStructure_buffers he
    · exact Engine.Form.setValue_buffers he

theorem materialize_bounded (hinv : form.Inv) (hb : form.Bounded)
    (h : form.materialize target = (form', r)) : form'.Bounded := by
  have hc := materialize_checked h
  have heffect := materialize_effect hinv h
  rcases materialize_cases h with hr | ⟨_, _, _, _, ⟨_, he⟩, rfl, _⟩
  · exact hr.1 ▸ hb
  · exact hb.of_checked heffect hc (settle_engine form _)
      (Engine.Form.materializeStructure_buffers he)

theorem appendItem_bounded (hinv : form.Inv) (hb : form.Bounded)
    (h : form.appendItem array = (form', r)) : form'.Bounded := by
  have hc := appendItem_checked h
  have heffect := appendItem_effect hinv h
  rcases appendItem_cases h with hr | ⟨_, _, _, _, _, ⟨_, he⟩, rfl, _⟩
  · exact hr.1 ▸ hb
  · have hedited := edited_of_ok (Engine.Form.appendArrayItem_edited form.engine_wf hinv he) rfl
    exact hb.of_checked heffect hc rfl hedited.buffers

theorem insertItemBefore_bounded (hinv : form.Inv) (hb : form.Bounded) {before : ItemIdentity}
    (h : form.insertItemBefore array before = (form', r)) : form'.Bounded := by
  have hc := insertItemBefore_checked h
  have heffect := insertItemBefore_effect hinv h
  rcases insertItemBefore_cases h with hr | ⟨_, _, _, _, _, _, ⟨_, he⟩, rfl, _⟩
  · exact hr.1 ▸ hb
  · have hedited := edited_of_ok
      (Engine.Form.insertArrayItemBefore_edited form.engine_wf hinv he) rfl
    exact hb.of_checked heffect hc rfl hedited.buffers

/-- Unchecked: fewer items need no more of anything. -/
theorem removeItem_bounded (hinv : form.Inv) (hb : form.Bounded) {item : ItemIdentity}
    (h : form.removeItem array item = (form', r)) : form'.Bounded := by
  have heffect := removeItem_effect hinv h
  rcases removeItem_cases h with hr | ⟨_, _, _, _, _, _, ⟨_, he⟩, rfl, _⟩
  · exact hr.1 ▸ hb
  · have hedited := edited_of_ok (Engine.Form.removeArrayItem_edited hinv he) rfl
    exact hb.of_from heffect ((removeArrayItem_thinned he).admits hinv hb.formData) hedited.buffers

theorem moveItem_bounded (hinv : form.Inv) (hb : form.Bounded) {direction : Engine.ArrayMove}
    {item : ItemIdentity} (h : form.moveItem direction array item = (form', r)) :
    form'.Bounded := by
  have heffect := moveItem_effect hinv h
  rcases moveItem_cases h with hr | ⟨_, _, engine, _, _, _, ⟨_, he⟩, hform, _⟩
  · exact hr.1 ▸ hb
  · have hedited := edited_of_ok (Engine.Form.moveArrayItem_edited hinv he) rfl
    have hengine : form'.engine = engine := by
      rw [hform]
      split <;> rfl
    refine hb.of_from heffect ?_ (hengine ▸ hedited.buffers)
    rw [formData, hengine]
    exact (moveArrayItem_thinned he).admits hinv hb.formData

theorem toggleChoice_bounded (hinv : form.Inv) (hb : form.Bounded)
    (h : form.toggleChoice array value = (form', r)) : form'.Bounded := by
  have hc := toggleChoice_checked h
  have heffect := toggleChoice_effect hinv h
  rcases toggleChoice_cases h with hr | ⟨_, _, _, _, _, ⟨_, he⟩, rfl, _⟩
  · exact hr.1 ▸ hb
  · have hedited := edited_of_ok (Engine.Form.toggleArrayChoice_edited form.engine_wf hinv he) rfl
    exact hb.of_checked heffect hc rfl hedited.buffers

end Users

/-- The candidate is checked before values take their earlier spelling. -/
theorem hostCommitted_bounded (hinv : form.Inv) (hb : form.Bounded)
    {operations : List HostOperation} (hwf : ∀ o ∈ operations, o.WF) {candidate : Value}
    (hc : form.hostCandidate (form.queued operations) = .ok candidate)
    (he : form.engine.applyHostTransaction candidate (form.queued operations).writes
      ((form.queued operations).arrayTopologies.map hostArrayChange)
      (form.queued operations).itemWrites = (engine, .ok ())) :
    (form.hostCommitted (form.queued operations) candidate engine).Bounded := by
  have heffect := hostCommitted_effect hinv hwf hc he
  obtain ⟨_, _, hw⟩ := queued_candidate hinv hwf hc
  have hengine := form.hostCommitted_engine (form.queued operations) candidate engine
  have hinv' := heffect.engine.inv
  rw [hengine] at hinv'
  have hfrom := Engine.Form.applyHostTransaction_buffers hinv hinv' hw.found he
  rw [← hengine] at hfrom
  refine hb.of_from heffect ?_ hfrom
  obtain ⟨_, _, hcheck, _, rfl⟩ := hostCandidate_eq_ok hc
  have hadmits := hb.formData.preserve (admits_of_checkRuntime hcheck) hinv.formData_wf
    (queued_tracked hinv hwf).candidate_wf
  rw [formData, hengine]
  rcases Engine.Form.applyHostTransaction_cases hinv.identities_nodup hw.found he with
    ⟨_, _, hr⟩ | ⟨_, _, _, _, _, rfl, _⟩
  · cases hr
  · change form.Admits (form.engine.committedData _)
    unfold Engine.Form.committedData
    split
    · exact hb.formData
    · exact hadmits

theorem reset_bounded (hinv : form.Inv) (hb : form.Bounded) : form.reset.1.Bounded := by
  have heffect := reset_effect hinv
  have hengine : form.reset.1.engine = form.engine.reset := by
    rw [reset_eq]
    split <;> rfl
  refine ⟨?_, ?_, ?_⟩
  · refine Admits.congr ?_ heffect.definition heffect.limits
    rw [formData, hengine, Engine.Form.reset_formData]
    split
    · exact hb.formData
    · exact hb.baseline
  · refine Admits.congr ?_ heffect.definition heffect.limits
    rw [hengine, Engine.Form.reset_baseline]
    exact hb.baseline
  · refine hb.buffers.of_subperm heffect.limits ?_
    rw [hengine, Engine.Form.buffers_of_clear (Engine.Form.reset_clear form.engine)]
    exact List.nil_subperm

theorem reinitialize_bounded (hinv : form.Inv) (hb : form.Bounded) {value : Value}
    (hwf : value.WF) {r : Except ReinitializeError Transition}
    (h : form.reinitialize value = (form', r)) : form'.Bounded := by
  have heffect := reinitialize_effect hinv hwf h
  unfold reinitialize at h
  split at h
  · cases h
    exact hb
  rcases attempt_cases h with hr | ⟨⟨⟩, hcheck, h⟩
  · exact hr.1 ▸ hb
  have hadmits := (admits_of_checkRuntime (mapError_eq_ok.mp hcheck)).congr heffect.definition
    heffect.limits
  dsimp only at h
  split at h
  · rename_i engine e he
    cases h
    rcases Engine.Form.reinitialize_cases he with ⟨rfl, _⟩ | ⟨hok, _⟩
    · exact hb
    · cases hok
  rename_i engine he
  cases h
  have hclear := Engine.Form.buffers_of_clear (Engine.Form.reinitialize_clear he)
  rcases Engine.Form.reinitialize_cases he with ⟨_, _, hr⟩ | ⟨_, _, hengine⟩
  · cases hr
  refine ⟨?_, ?_, hb.buffers.of_subperm heffect.limits (hclear ▸ List.nil_subperm)⟩
  · have hdata : engine.formData =
        if jsonValuesEqual form.formData value then form.formData else value := by
      rw [hengine]
      rfl
    change Admits _ engine.formData
    rw [hdata]
    split
    · exact hb.formData.congr heffect.definition heffect.limits
    · exact hadmits
  · have hbaseline : engine.baseline = value := by rw [hengine]
    change Admits _ engine.baseline
    rw [hbaseline]
    exact hadmits

/-- Operations that leave the engine's data and buffers alone. -/
theorem Bounded.of_same (hb : form.Bounded) (he : form.Effect form')
    (hdata : form'.formData = form.formData) (hfrom : form.engine.BuffersFrom form'.engine) :
    form'.Bounded := hb.of_from he (hdata ▸ hb.formData) hfrom

theorem tryTransact_bounded (hinv : form.Inv) (hb : form.Bounded) {ε : Type}
    {operations : List HostOperation} (hwf : ∀ o ∈ operations, o.WF) {closure : Except ε Unit}
    {r : Except (TransactionError ε) Transition}
    (h : form.tryTransact operations closure = (form', r)) : form'.Bounded := by
  rcases tryTransact_cases hinv hwf h with hr | ⟨candidate, engine, _, hc, he, rfl, _⟩
  · exact hr.1 ▸ hb
  · exact hostCommitted_bounded hinv hb hwf hc he

theorem transact_bounded (hinv : form.Inv) (hb : form.Bounded) {operations : List HostOperation}
    (hwf : ∀ o ∈ operations, o.WF) {r : Except HostCommitError Transition}
    (h : form.transact operations = (form', r)) : form'.Bounded := by
  rcases transact_cases hinv hwf h with hr | ⟨candidate, engine, hc, he, rfl, _⟩
  · exact hr.1 ▸ hb
  · exact hostCommitted_bounded hinv hb hwf hc he

theorem applyExternalFindings_bounded (hinv : form.Inv) (hb : form.Bounded)
    {batch : ExternalFindingBatch} {r : Except (Failure ExternalFindingError) Transition}
    (h : form.applyExternalFindings batch = (form', r)) : form'.Bounded := by
  have heffect := applyExternalFindings_effect hinv h
  rcases applyExternalFindings_cases h with hr | ⟨stored, _, rfl, _⟩
  · exact hr.1 ▸ hb
  · refine hb.of_same heffect ?_ ?_
    all_goals unfold withBatch
    all_goals dsimp only
    all_goals split
    · rfl
    · rfl
    · exact .of_eq rfl rfl rfl
    · exact .refl _

theorem setFindingVisibility_bounded (hinv : form.Inv) (hb : form.Bounded)
    (policy : FindingVisibilityPolicy) : (form.setFindingVisibility policy).1.Bounded := by
  refine hb.of_same (setFindingVisibility_effect hinv policy) ?_ ?_
  all_goals unfold setFindingVisibility
  all_goals dsimp only
  all_goals split
  · rfl
  · rfl
  · exact .of_eq rfl rfl rfl
  · exact .refl _

theorem setReadOnly_bounded (hinv : form.Inv) (hb : form.Bounded) (readOnly : Bool) :
    (form.setReadOnly readOnly).1.Bounded := by
  refine hb.of_same (setReadOnly_effect hinv readOnly) ?_ ?_
  all_goals unfold setReadOnly
  all_goals dsimp only
  all_goals split
  · rfl
  · rfl
  · exact .of_eq rfl rfl rfl
  · exact .refl _

theorem prepareSubmission_bounded (hinv : form.Inv) (hb : form.Bounded) :
    ({ form with engine := form.engine.prepareSubmission.1 } : Form).Bounded :=
  hb.of_same (prepareSubmission_effect hinv) rfl
    (Engine.Form.prepareSubmission_buffers form.engine)

/-! ## Whole runs -/

theorem step_bounded (hinv : form.Inv) (hb : form.Bounded) (operation : WellFormedOperation) :
    (formSystem.step form operation).Bounded := by
  obtain ⟨operation, hwf⟩ := operation
  cases operation with
  | inputText target text => exact inputText_bounded hinv hb rfl
  | blur target => exact blur_bounded hinv hb rfl
  | setValue target value => exact setValue_bounded hinv hb hwf rfl
  | setNull target => exact setNull_bounded hinv hb rfl
  | removeValue target => exact removeValue_bounded hinv hb rfl
  | replaceValue target value => exact replaceValue_bounded hinv hb hwf rfl
  | materialize target => exact materialize_bounded hinv hb rfl
  | appendItem array => exact appendItem_bounded hinv hb rfl
  | insertItemBefore array before => exact insertItemBefore_bounded hinv hb rfl
  | removeItem array item => exact removeItem_bounded hinv hb rfl
  | moveItem direction array item => exact moveItem_bounded hinv hb rfl
  | toggleChoice array value => exact toggleChoice_bounded hinv hb rfl
  | transact operations => exact transact_bounded hinv hb hwf rfl
  | tryTransact operations closure => exact tryTransact_bounded hinv hb hwf rfl
  | applyExternalFindings batch => exact applyExternalFindings_bounded hinv hb rfl
  | reset => exact reset_bounded hinv hb
  | setFindingVisibility policy => exact setFindingVisibility_bounded hinv hb policy
  | setReadOnly readOnly => exact setReadOnly_bounded hinv hb readOnly
  | reinitialize formData => exact reinitialize_bounded hinv hb hwf rfl
  | prepareSubmission =>
    change form.prepareSubmission.1.Bounded
    rw [prepareSubmission_form]
    exact prepareSubmission_bounded hinv hb
  | prepareAdvisorySubmission =>
    change form.prepareAdvisorySubmission.1.Bounded
    rw [prepareAdvisorySubmission_form]
    exact prepareSubmission_bounded hinv hb

theorem new_admits {id : Nat} {definition : FormDefinition} {value : Value}
    {limits : FormDataLimits} {visibility : FindingVisibilityPolicy}
    {externalFindingLimits : ExternalFindingLimits}
    (h : Form.new id definition value limits visibility externalFindingLimits = .ok form) :
    Admitted limits.inputLimits value ∧
    (definition.inner.initialTreeMetrics value).1 ≤ limits.maxFormTreeNodes ∧
    (definition.inner.initialTreeMetrics value).2 ≤ limits.maxRepeatedItems := by
  unfold Form.new at h
  dsimp only at h
  split at h
  · cases h
  obtain ⟨_, hinput, h⟩ := bind_eq_ok.mp h
  obtain ⟨_, htree, _⟩ := bind_eq_ok.mp h
  exact ⟨checkInput_eq_ok (mapError_eq_ok.mp hinput), checkFormTree_eq_ok (mapError_eq_ok.mp htree)⟩

theorem createForm_data {definition : Engine.FormDefinition} {value : Value}
    (h : definition.createForm value = .ok engine) :
    engine.formData = value ∧ engine.baseline = value := by
  unfold Engine.FormDefinition.createForm at h
  split at h
  · cases h
  · cases h
    exact ⟨rfl, rfl⟩

theorem build_bounded {builder : FormBuilder} {id : Nat} (h : builder.build id = .ok form) :
    form.Bounded ∧ form.limits = builder.limits := by
  obtain ⟨built, hnew, h⟩ := bind_eq_ok.mp h
  have hadmits := new_admits hnew
  obtain ⟨engine, he, rfl⟩ := new_ok hnew
  cases h
  have hclear := Engine.Form.buffers_of_clear (createForm_clear he)
  obtain ⟨hdata, hbaseline⟩ := createForm_data he
  refine ⟨⟨?_, ?_, ⟨fun buffer hbuffer => ?_, ?_, ?_⟩⟩, rfl⟩
  · rw [formData, hdata]
    exact hadmits
  · rw [hbaseline]
    exact hadmits
  · rw [hclear] at hbuffer
    cases hbuffer
  · rw [hclear]
    exact Nat.zero_le _
  · rw [Engine.Form.bufferBytes, hclear]
    exact Nat.zero_le _

/-- The form data pass the scan, the tree has the size counted from them, no edit buffer and not
all of them together are too long. -/
structure WithinLimits (limits : FormDataLimits) (form : Form) : Prop where
  formData : checkInputValue form.formData limits.inputLimits = .ok ()
  metrics : form.definition.inner.initialTreeMetrics form.formData =
    (form.instanceIdentities.length, form.repeatedItems.length)
  nodes : form.instanceIdentities.length ≤ limits.maxFormTreeNodes
  items : form.repeatedItems.length ≤ limits.maxRepeatedItems
  buffer : ∀ control ∈ form.engine.allControls, ∀ buffer, control.editBuffer = some buffer →
    buffer.utf8ByteSize ≤ limits.maxEditBufferBytes
  active : (form.engine.allControls.filterMap (·.editBuffer)).length ≤ limits.maxActiveEditBuffers
  total : ((form.engine.allControls.filterMap (·.editBuffer)).map String.utf8ByteSize).sum ≤
    limits.maxTotalEditBufferBytes

theorem Bounded.withinLimits (hb : form.Bounded) (hinv : form.Inv) :
    WithinLimits form.limits form where
  formData := checkInputValue_iff.mpr hb.formData.1
  metrics := Prod.ext (length_instanceIdentities hinv).symm (length_repeatedItems hinv).symm
  nodes := length_instanceIdentities hinv ▸ hb.formData.2.1
  items := length_repeatedItems hinv ▸ hb.formData.2.2
  buffer := fun control hcontrol buffer hbuffer =>
    hb.buffers.buffer buffer (List.mem_filterMap.mpr ⟨control, hcontrol, hbuffer⟩)
  active := hb.buffers.active
  total := hb.buffers.total

/-- In every state a built form reaches. -/
theorem limits_hold {builder : FormBuilder} {id : Nat} (hwf : builder.formData.WF)
    (h : builder.build id = .ok form) (operations : List WellFormedOperation) :
    WithinLimits builder.limits (formSystem.run form operations) := by
  obtain ⟨hb, hlimits⟩ := build_bounded h
  have hreachable : formSystem.Reachable form := .init ⟨builder, id, hwf, h⟩
  have hrun := TransitionSystem.run_stable
    (P := fun form => form.Bounded ∧ form.limits = builder.limits)
    (fun form operation hr hp => ⟨step_bounded (reachable_inv hr) hp.1 operation,
      (reachable_effect hr operation).limits.trans hp.2⟩) hreachable ⟨hb, hlimits⟩ operations
  rw [← hrun.2]
  exact hrun.1.withinLimits (reachable_inv (hreachable.run operations))

/-- One item and one buffer allowed. -/
def oneItem : FormBuilder where
  definition := Sample.strings
  formData := Sample.formData []
  limits := { maxFormTreeNodes := 3, maxRepeatedItems := 1, maxActiveEditBuffers := 1 }

/-- An item is added and its text typed. -/
theorem limits_hold_typed :
    let form' := formSystem.run { Sample.empty with limits := oneItem.limits }
      [⟨.appendItem ⟨0, 1, none⟩, trivial⟩, ⟨.inputText ⟨0, 2, some ⟨0, 1⟩⟩ "x", trivial⟩]
    form'.formData = Sample.formData [.string "x"] ∧ form'.engine.buffers = ["x"] ∧
      WithinLimits oneItem.limits form' := by
  have hbuild : oneItem.build 0 = .ok { Sample.empty with limits := oneItem.limits } := rfl
  exact ⟨rfl, rfl, limits_hold (by decide) hbuild _⟩

end Form

end Schemaform
