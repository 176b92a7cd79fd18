import Schemaform.Dioxus.Handle

/-!
# Dioxus.Edit

Editing one control from the browser.

* `Edited`: what a callback leaves, calls and puts back into the widget.
* `BooleanEdit.set`, `ChoiceEdit.select`, `MultipleChoiceEdit.toggle`.
* `Composition`, `TextEdit`: text that is being composed waits in the widget.
* `Session`: one handle and the text controls mounted on it; `sessionSystem`, under any events.
-/

namespace Schemaform.Dioxus

/-- After a callback: the handle, the result of the call it made, if any, and what the widget is
set to when it is brought back in step. -/
structure Edited (α : Type) where
  handle : HandleInner
  result : Option (Except HandleError Transition)
  resynchronized : Option α

/-- A callback that makes no call. -/
def Edited.none {α : Type} (handle : HandleInner) (resynchronized : Option α) : Edited α :=
  ⟨handle, .none, resynchronized⟩

section Target

variable (label : Value → String) (handle : HandleInner) (target : InstanceIdentity)

def readUntracked : Option NodeProjection := (NodeReader.read label handle target).toOption.join

/-- Replaces where the core allows it, else sets. -/
def setOrReplace (value : Value) (operations : Option AllowedOperations) : Called :=
  if operations.any (·.replaceValue) then handle.replaceValue target value
  else handle.setValue target value

/-! ## Boolean controls -/

structure BooleanState where
  checked : Option Bool
  operations : AllowedOperations
  writeOnly : Bool
deriving DecidableEq, Repr

def displayedBoolean : Option Value → Option Bool
  | some (.bool value) => some value
  | some .null => none
  | _ => some false

def booleanStateOf (projection : NodeProjection) : BooleanState where
  checked := if projection.writeOnly then none else displayedBoolean projection.currentData
  operations := projection.allowedOperations
  writeOnly := projection.writeOnly

/-- `rendered` is the state rendered last, for a form that cannot be read. -/
def BooleanEdit.currentState (rendered : Option BooleanState) : Option BooleanState :=
  ((readUntracked label handle target).map booleanStateOf).or rendered

def BooleanEdit.set (rendered : Option BooleanState) (value : Option Bool) :
    Edited (Option Bool) :=
  let state := BooleanEdit.currentState label handle target rendered
  let called :=
    match value with
    | none => handle.setNull target
    | some value => setOrReplace handle target (.bool value) (state.map BooleanState.operations)
  { handle := called.handle
    result := called.result
    resynchronized :=
      if !called.result.isOk || state.any BooleanState.writeOnly then some
        (state.bind BooleanState.checked)
      else none }

/-! ## Choice controls -/

structure ChoiceOption where
  identity : ChoiceIdentity
  isNull : Bool
  disabled : Bool
deriving DecidableEq, Repr

structure ChoiceEntry where
  option : ChoiceOption
  value : Value
deriving DecidableEq, Repr

structure ChoiceState where
  selected : Option ChoiceIdentity
  entries : List ChoiceEntry
  operations : AllowedOperations
  writeOnly : Bool
deriving DecidableEq, Repr

def choiceEntry (projection : NodeProjection) (option : ChoiceOptionProjection) : ChoiceEntry :=
  let operations := projection.allowedOperations
  let isNull := option.value.isNull
  let current := !projection.writeOnly && option.selected
  let allowed :=
    if isNull then operations.setNull else operations.setValue || operations.replaceValue
  ⟨⟨option.identity, isNull, !current && !allowed⟩, option.value⟩

def choiceStateOf (projection : NodeProjection) : ChoiceState where
  selected :=
    if projection.writeOnly then none
    else (projection.choiceOptions.find? (·.selected)).map (·.identity)
  entries := projection.choiceOptions.map (choiceEntry projection)
  operations := projection.allowedOperations
  writeOnly := projection.writeOnly

def ChoiceEdit.currentState (rendered : Option ChoiceState) : Option ChoiceState :=
  ((readUntracked label handle target).map choiceStateOf).or rendered

/-- What selecting an entry calls. -/
def ChoiceEdit.call (state : ChoiceState) (entry : ChoiceEntry) : Called :=
  if entry.option.isNull then handle.setNull target
  else setOrReplace handle target entry.value (some state.operations)

def ChoiceEdit.select (rendered : Option ChoiceState) (identity : Option ChoiceIdentity) :
    Edited ChoiceIdentity :=
  match ChoiceEdit.currentState label handle target rendered with
  | none => .none handle none
  | some state =>
    let selected := some (state.selected.getD "")
    match identity.bind fun identity => state.entries.find? (·.option.identity == identity) with
    | none => .none handle selected
    | some entry =>
      if !state.writeOnly && state.selected == some entry.option.identity then
        .none handle selected
      else
        let called := ChoiceEdit.call handle target state entry
        { handle := called.handle
          result := called.result
          resynchronized := if state.writeOnly || !called.result.isOk then selected else none }

/-! ## Multiple-choice controls -/

structure MultipleChoiceState where
  selected : List ChoiceIdentity
  entries : List ChoiceEntry
deriving DecidableEq, Repr

def multipleChoiceIsDisabled (projection : NodeProjection) : Bool :=
  projection.writeOnly || !projection.allowedOperations.toggleChoice

def multipleChoiceStateOf (projection : NodeProjection) : MultipleChoiceState where
  selected :=
    if projection.writeOnly then []
    else (projection.choiceOptions.filter (·.selected)).map (·.identity)
  entries := projection.choiceOptions.map fun option =>
    ⟨⟨option.identity, option.value.isNull, multipleChoiceIsDisabled projection⟩, option.value⟩

def MultipleChoiceEdit.currentState (rendered : Option MultipleChoiceState) :
    Option MultipleChoiceState :=
  ((readUntracked label handle target).map multipleChoiceStateOf).or rendered

def MultipleChoiceEdit.toggle (rendered : Option MultipleChoiceState) (identity : ChoiceIdentity) :
    Edited (ChoiceIdentity × Bool) :=
  match MultipleChoiceEdit.currentState label handle target rendered with
  | none => .none handle none
  | some state =>
    match state.entries.find? (·.option.identity == identity) with
    | none => .none handle none
    | some entry =>
      let called := handle.toggleChoice target entry.value
      { handle := called.handle
        result := called.result
        resynchronized :=
          if called.result.isOk then none else some (identity, state.selected.contains identity) }

end Target

/-! ## Text controls -/

/-- Text being composed, and the lifecycle it began in. -/
structure Composition where
  lifecycle : Nat
  text : String
deriving DecidableEq, Repr

structure TextEdit where
  target : InstanceIdentity
  composition : Option Composition
  /-- The canonical text rendered last. -/
  canonical : Option String
deriving DecidableEq, Repr

namespace TextEdit

variable (label : Value → String) (handle : HandleInner) (edit : TextEdit)

/-- The text of the node, or the text rendered last where the form cannot be read. -/
def canonicalText : String :=
  (((readUntracked label handle edit.target).map NodeProjection.displayText).or
    edit.canonical).getD ""

def compositionIsStale : Bool :=
  edit.composition.any fun current => current.lifecycle != handle.lifecycleVersion

def discardComposition : TextEdit := { edit with composition := none }

/-- What the widget displays. -/
def value : String :=
  match edit.composition with
  | some current =>
    if current.lifecycle = handle.lifecycleVersion then current.text else edit.canonical.getD ""
  | none => edit.canonical.getD ""

def input (text : String) : HandleInner × TextEdit :=
  if edit.composition.any fun current => current.lifecycle == handle.lifecycleVersion then
    (handle, { edit with composition := some ⟨handle.lifecycleVersion, text⟩ })
  else ((handle.inputText edit.target text).handle, edit)

def startComposition : TextEdit :=
  { edit with
    composition := some ⟨handle.lifecycleVersion, edit.canonicalText label handle⟩ }

def finishComposition : HandleInner × TextEdit :=
  match edit.composition with
  | none => (handle, edit)
  | some current =>
    if current.lifecycle = handle.lifecycleVersion then
      ((handle.inputText edit.target current.text).handle, edit.discardComposition)
    else (handle, edit.discardComposition)

def blur : HandleInner × TextEdit :=
  let (handle, edit) := edit.finishComposition handle
  ((handle.blur edit.target).handle, edit)

/-- The memo of the canonical text is recomputed and the effect runs. -/
def render : TextEdit :=
  let edit := { edit with
    canonical := (readUntracked label handle edit.target).map NodeProjection.displayText }
  if edit.compositionIsStale handle then edit.discardComposition else edit

end TextEdit

/-! ## Sessions -/

/-- A handle and the text controls mounted on it. -/
structure Session (ι : Type) where
  handle : HandleInner
  edits : ι → TextEdit

inductive SessionEvent (ι : Type) where
  /-- A call by the host, by another control, or the end of the handle's scope. -/
  | call (call : HandleCall)
  | input (control : ι) (text : String)
  | compositionStart (control : ι)
  | compositionEnd (control : ι)
  | blur (control : ι)
  | render (control : ι)

namespace Session

variable {ι : Type} [DecidableEq ι] (label : Value → String) (session : Session ι)

/-- What a callback of one control leaves. -/
def put (control : ι) (after : HandleInner × TextEdit) : Session ι :=
  ⟨after.1, Function.update session.edits control after.2⟩

def step : SessionEvent ι → Session ι
  | .call call => { session with handle := (session.handle.call call).1 }
  | .input control text =>
    session.put control ((session.edits control).input session.handle text)
  | .compositionStart control =>
    session.put control
      (session.handle, (session.edits control).startComposition label session.handle)
  | .compositionEnd control =>
    session.put control ((session.edits control).finishComposition session.handle)
  | .blur control => session.put control ((session.edits control).blur session.handle)
  | .render control =>
    session.put control (session.handle, (session.edits control).render label session.handle)

end Session

/-- Controls are mounted on a handle of any past, without a composition. -/
def sessionSystem (ι : Type) [DecidableEq ι] (label : Value → String) :
    TransitionSystem (Session ι) (SessionEvent ι) where
  init session := handleSystem.Reachable session.handle ∧
    ∀ control, (session.edits control).composition = none
  step session event := session.step label event

end Schemaform.Dioxus
