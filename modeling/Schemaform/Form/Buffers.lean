import Schemaform.Form.Reachable

/-!
# Form.Buffers

Edit buffers and the data they stand for, over whole runs.

* `edit_buffers_coherent`: in every reachable form a buffer spells the value at its control's
  current binding, or carries the blocker that parsing it reports.
* `Sample.typed`: a list item that has been typed into.
-/

namespace Schemaform

open Engine (ControlState)

namespace Sample

def appendItem : WellFormedOperation := ⟨.appendItem (empty.identity 1), trivial⟩

def inputText (text : String) : WellFormedOperation :=
  ⟨.inputText (empty.itemIdentity 2 (empty.item 1)) text, trivial⟩

/-- One item, with text in its buffer. -/
def typed : Form := formSystem.run empty [appendItem, inputText "x"]

theorem typed_reachable : formSystem.Reachable typed := empty_reachable.run _

def typedControl : ControlState :=
  { ControlState.new item with editBuffer := some "x" }

end Sample

namespace Form

variable {form : Form}

/-- Controls are listed with their current bindings, those of array items at the item's index. -/
theorem edit_buffers_coherent (h : formSystem.Reachable form) {binding : Pointer}
    {control : ControlState} (hmem : (binding, control) ∈ form.engine.boundControls) :
    (control.editBuffer.isSome = true →
      control.definition.kind = .string ∨ control.definition.kind = .number ∨
      control.definition.kind = .integer) ∧
    (∀ text, control.editBuffer = some text → control.parseBlocker = none →
      ∃ parsed present,
        Engine.Form.parseText form.definition.inner.parser control.definition.kind text
          form.limits.maxCanonicalIntegerDigits = some (.ok parsed) ∧
        binding.resolve form.formData = some present ∧ jsonValuesEqual parsed present = true) ∧
    (∀ blocker, control.parseBlocker = some blocker → ∃ text, control.editBuffer = some text ∧
      Engine.Form.parseText form.definition.inner.parser control.definition.kind text
        form.limits.maxCanonicalIntegerDigits = some (.error blocker)) := by
  have hcoherent := (Engine.Form.coherent_iff.mp (reachable_inv h).coherent).1 _ hmem
  refine ⟨fun hb => ?_, hcoherent.unblocked, hcoherent.blocked⟩
  have htextual := hcoherent.textual hb
  cases hk : control.definition.kind <;> simp_all [Engine.ControlKind.textual]

theorem edit_buffers_coherent_typed : ∃ parsed present,
    Engine.Form.parseText Sample.typed.definition.inner.parser
      Sample.typedControl.definition.kind "x"
      Sample.typed.limits.maxCanonicalIntegerDigits = some (.ok parsed) ∧
    Pointer.resolve ["a", "0"] Sample.typed.formData = some present ∧
    jsonValuesEqual parsed present = true := by
  have hmem : (["a", "0"], Sample.typedControl) ∈ Sample.typed.engine.boundControls := by decide
  exact (edit_buffers_coherent Sample.typed_reachable hmem).2.1 "x" rfl rfl

end Form

end Schemaform
