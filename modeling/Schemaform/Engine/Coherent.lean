import Schemaform.Engine.Lifecycle
import Schemaform.Json.Write

/-!
# Engine.Coherent

Edit buffers and array items against the data they stand for.

* `ControlCoherent`: a buffer without a blocker spells the present value, a blocker is what parsing
  the buffer reports.
* `ArrayCoherent`: item states and array values in step, item by item.
* `coherent_iff`: the same over all control states at their current bindings.
-/

namespace Schemaform.Engine

/-- Kinds of control that text can be typed into. -/
def ControlKind.textual : ControlKind → Bool
  | .string | .number | .integer => true
  | _ => false

structure ControlCoherent (numbers : NumberInput) (current : Option Value)
    (control : ControlState) : Prop where
  textual : control.editBuffer.isSome = true → control.definition.kind.textual = true
  blocked : ∀ blocker, control.parseBlocker = some blocker → ∃ text,
    control.editBuffer = some text ∧
    Form.parseText numbers.parser control.definition.kind text numbers.maximumDigits =
      some (.error blocker)
  unblocked : ∀ text, control.editBuffer = some text → control.parseBlocker = none → ∃ v w,
    Form.parseText numbers.parser control.definition.kind text numbers.maximumDigits =
      some (.ok v) ∧ current = some w ∧ jsonValuesEqual v w = true

theorem parseText_wf {kind : ControlKind} {text : String} {numbers : NumberInput} {v : Value}
    (h : Form.parseText numbers.parser kind text numbers.maximumDigits = some (.ok v)) : v.WF := by
  unfold Form.parseText at h
  split at h
  · cases h; rfl
  · obtain ⟨_, _, hw⟩ := parseNumber_number (Option.some.inj h); exact hw
  · obtain ⟨_, _, _, _, hread⟩ := parseIntegerWithLimit_ok (Option.some.inj h)
    exact numbers.parser.wf hread
  all_goals cases h

namespace ControlCoherent

variable {numbers : NumberInput} {current current' : Option Value} {control : ControlState}

theorem of_clear (hb : control.editBuffer = none) (hp : control.parseBlocker = none) :
    ControlCoherent numbers current control := by
  constructor
  · simp [hb]
  · simp [hp]
  · simp [hb]

theorem new (definition : ControlDefinition) :
    ControlCoherent numbers current (ControlState.new definition) := of_clear rfl rfl

theorem clearEditState (control : ControlState) :
    ControlCoherent numbers current control.clearEditState := of_clear rfl rfl

theorem clearLifecycleState (control : ControlState) :
    ControlCoherent numbers current control.clearLifecycleState := of_clear rfl rfl

/-- The data may change to semantically equal data. -/
theorem congr (h : ControlCoherent numbers current control) (hs : SameValue current current')
    (hw : ∀ v, current = some v → v.WF) (hw' : ∀ v, current' = some v → v.WF) :
    ControlCoherent numbers current' control := by
  refine ⟨h.textual, h.blocked, fun text hb hp => ?_⟩
  obtain ⟨v, w, hv, rfl, heq⟩ := h.unblocked text hb hp
  cases hs with
  | @some _ w' hww =>
    exact ⟨v, w', hv, rfl, jsonValuesEqual_trans (parseText_wf hv) (hw w rfl) (hw' w' rfl) heq hww⟩

/-- Over absent data there is no unblocked buffer, so any data will do. -/
theorem of_absent (h : ControlCoherent numbers none control) :
    ControlCoherent numbers current control := by
  refine ⟨h.textual, h.blocked, fun text hb hp => ?_⟩
  obtain ⟨v, w, _, hw, _⟩ := h.unblocked text hb hp
  cases hw

theorem finalizeEditBuffer (h : ControlCoherent numbers current control) :
    ControlCoherent numbers current control.finalizeEditBuffer := by
  unfold ControlState.finalizeEditBuffer
  split
  · rename_i hp
    exact of_clear rfl (by simpa using hp)
  · exact h

theorem touch (h : ControlCoherent numbers current control) :
    ControlCoherent numbers current { control with touched := true } :=
  ⟨h.textual, h.blocked, h.unblocked⟩

end ControlCoherent

/-! ## Array items -/

def ItemCoherent (numbers : NumberInput) (item : ArrayItemState) (value : Value) : Prop :=
  ∀ c ∈ item.controls, ControlCoherent numbers (Pointer.resolve c.definition.binding value) c

def ArrayCoherent (numbers : NumberInput) (formData : Value) (array : ArrayState) : Prop :=
  List.Forall₂ (ItemCoherent numbers) array.items (arrayValues array.definition.binding formData)

theorem itemCoherent_new (numbers : NumberInput) (identity : Nat) (definition : ArrayDefinition)
    (value : Value) :
    ItemCoherent numbers (ArrayItemState.new identity definition) value := by
  intro c hc
  obtain ⟨d, _, rfl⟩ := List.mem_map.mp hc
  exact ControlCoherent.new d

theorem resolve_arrayItem {binding : Pointer} {formData value : Value} {i : Nat}
    (h : (arrayValues binding formData)[i]? = some value) (r : Pointer) :
    Pointer.resolve (arrayItemPointer binding i ++ r) formData = Pointer.resolve r value := by
  unfold arrayValues at h
  cases hb : Pointer.resolve binding formData with
  | none => simp [hb] at h
  | some c =>
    cases c with
    | array items =>
      simp only [hb, Option.bind_some, Value.asArray, Option.getD_some] at h
      have hlt : i < items.length := (List.getElem?_eq_some_iff.mp h).1
      rw [arrayItemPointer, List.append_assoc, Pointer.resolve_append, hb, Option.bind_some,
        List.singleton_append, Pointer.resolve_cons, Value.child, Token.indexFor_repr hlt,
        Option.bind_some, h, Option.bind_some]
    | _ => simp [hb, Value.asArray] at h

/-- Item states and values in step, read through the absolute bindings of the item controls. -/
theorem arrayCoherent_iff {numbers : NumberInput} {formData : Value} {array : ArrayState} :
    ArrayCoherent numbers formData array ↔
      array.items.length = (arrayValues array.definition.binding formData).length ∧
      ∀ (i : Nat) (item : ArrayItemState), array.items[i]? = some item → ∀ c ∈ item.controls,
        ControlCoherent numbers (Pointer.resolve
          (arrayItemPointer array.definition.binding i ++ c.definition.binding) formData) c := by
  constructor
  · intro h
    refine ⟨h.length_eq, fun i item hi c hc => ?_⟩
    obtain ⟨hlt, rfl⟩ := List.getElem?_eq_some_iff.mp hi
    have hlt' := h.length_eq ▸ hlt
    rw [resolve_arrayItem (List.getElem?_eq_getElem hlt')]
    exact h.get hlt hlt' c hc
  · rintro ⟨hlen, h⟩
    refine List.forall₂_iff_get.mpr ⟨hlen, fun i hi hi' c hc => ?_⟩
    have hci := h i _ (List.getElem?_eq_getElem hi) c hc
    rwa [resolve_arrayItem (List.getElem?_eq_getElem hi')] at hci

/-- Every buffer of the form is coherent, and every array has one item state for each value. -/
structure Form.Coherent (numbers : NumberInput) (form : Form) : Prop where
  controls : ∀ c ∈ form.controls,
    ControlCoherent numbers (Pointer.resolve c.definition.binding form.formData) c
  arrays : ∀ a ∈ form.arrays, ArrayCoherent numbers form.formData a

theorem mem_boundControls {form : Form} {q : Pointer} {c : ControlState} :
    (q, c) ∈ form.boundControls ↔
      (c ∈ form.controls ∧ q = c.definition.binding) ∨
      ∃ a ∈ form.arrays, ∃ (i : Nat) (item : ArrayItemState), a.items[i]? = some item ∧
        c ∈ item.controls ∧ q = arrayItemPointer a.definition.binding i ++ c.definition.binding := by
  simp only [Form.boundControls, List.mem_append, List.mem_map, Prod.mk.injEq, List.mem_flatMap,
    Prod.exists, List.mem_zipIdx_iff_getElem?]
  refine or_congr ?_ ?_
  · constructor
    · rintro ⟨c, hc, rfl, rfl⟩; exact ⟨hc, rfl⟩
    · rintro ⟨hc, rfl⟩; exact ⟨c, hc, rfl, rfl⟩
  · constructor
    · rintro ⟨a, ha, item, i, hi, c, hc, rfl, rfl⟩; exact ⟨a, ha, i, item, hi, hc, rfl⟩
    · rintro ⟨a, ha, i, item, hi, hc, rfl⟩; exact ⟨a, ha, item, i, hi, c, hc, rfl, rfl⟩

theorem Form.coherent_iff {numbers : NumberInput} {form : Form} :
    form.Coherent numbers ↔
      (∀ e ∈ form.boundControls,
        ControlCoherent numbers (Pointer.resolve e.1 form.formData) e.2) ∧
      ∀ a ∈ form.arrays,
        a.items.length = (arrayValues a.definition.binding form.formData).length := by
  constructor
  · intro h
    refine ⟨fun e he => ?_, fun a ha => (arrayCoherent_iff.mp (h.arrays a ha)).1⟩
    obtain ⟨q, c⟩ := e
    rcases mem_boundControls.mp he with ⟨hc, rfl⟩ | ⟨a, ha, i, item, hi, hc, rfl⟩
    · exact h.controls c hc
    · exact (arrayCoherent_iff.mp (h.arrays a ha)).2 i item hi c hc
  · rintro ⟨hb, hlen⟩
    refine ⟨fun c hc => hb (_, c) (mem_boundControls.mpr (.inl ⟨hc, rfl⟩)), fun a ha => ?_⟩
    refine arrayCoherent_iff.mpr ⟨hlen a ha, fun i item hi c hc => ?_⟩
    exact hb (_, c) (mem_boundControls.mpr (.inr ⟨a, ha, i, item, hi, hc, rfl⟩))

end Schemaform.Engine
