import Schemaform.Limits
import Schemaform.Ui.V1

/-!
# Ui.Extensions

The validation of the extensions of a UI schema.

* `ExtensionLimits`, `ExtensionValidationError`.
* `ValueScan`: the work list over one extension value, one value a step, and its run.
* `validateElementExtensions`: an element and everything inside it.
* `UiSchema.validateExtensions`.
-/

namespace Schemaform.Value

def children : Value → List Value
  | .array values => values
  | .object values => values.map Prod.snd
  | _ => []

/-- What a value weighs itself: a scalar its text, an object its keys. -/
def extensionBytes : Value → Nat
  | .array _ => 0
  | .object values => (values.map fun member => member.1.utf8ByteSize).sum
  | value => value.scalarBytes

theorem nodeCount_children (v : Value) : v.nodeCount = 1 +
    (v.children.map fun child => child.nodeCount).sum := by
  cases v with
  | array items => exact nodeCount_array items
  | object members =>
    rw [nodeCount_object, children, List.map_map]
    rfl
  | _ => rfl

end Schemaform.Value

namespace Schemaform.Ui.V1

structure ExtensionLimits where
  namespaces : Nat
  occurrences : Nat
  namespaceBytes : Nat
  valueDepth : Nat
  valueNodes : Nat
  valueBytes : Nat

inductive ExtensionErrorKind where
  | duplicateRequiredExtension
  | missingRequiredExtension
  | resourceLimit
deriving DecidableEq

structure ExtensionValidationError where
  location : Pointer
  kind : ExtensionErrorKind
  limit : Option InputLimitError
deriving DecidableEq

namespace ExtensionValidationError

def invalid (location : Pointer) (kind : ExtensionErrorKind) : ExtensionValidationError :=
  ⟨location, kind, none⟩

def resource (location : Pointer) (dimension : String) (maximum observed : Nat) :
    ExtensionValidationError :=
  ⟨location, .resourceLimit, some ⟨dimension, maximum, observed, location⟩⟩

end ExtensionValidationError

open ExtensionValidationError

/-! ## One value -/

/-- The work list, the entry popped next at its head, with the nodes and bytes so far. -/
structure ValueScan where
  pending : List (Value × Nat)
  nodes : Nat
  bytes : Nat

namespace ValueScan

def start (value : Value) : ValueScan := ⟨[(value, 1)], 0, 0⟩

/-- Once around the loop; `none` when nothing is pending. -/
def step (limits : ExtensionLimits) (location : Pointer) (scan : ValueScan) :
    Except ExtensionValidationError (Option ValueScan) :=
  match scan.pending with
  | [] => .ok none
  | (value, depth) :: pending =>
    let nodes := scan.nodes + 1
    let projectedNodes := nodes + pending.length + value.children.length
    let bytes := scan.bytes + value.extensionBytes
    if depth > limits.valueDepth then
      .error (resource location "extension_value_depth" limits.valueDepth depth)
    else if nodes > limits.valueNodes then
      .error (resource location "extension_value_nodes" limits.valueNodes nodes)
    else if projectedNodes > limits.valueNodes then
      .error (resource location "extension_value_nodes" limits.valueNodes projectedNodes)
    else if bytes > limits.valueBytes then
      .error (resource location "extension_value_bytes" limits.valueBytes bytes)
    else
      -- the last child is pushed last and popped first
      .ok (some ⟨(value.children.map fun child => (child, depth + 1)).reverse ++ pending,
        nodes, bytes⟩)

/-- The nodes still to visit. -/
def remaining (scan : ValueScan) : Nat := (scan.pending.map fun entry => entry.1.nodeCount).sum

/-- What a step has checked and where it goes. -/
theorem step_some {limits : ExtensionLimits} {location : Pointer} {scan next : ValueScan} :
    scan.step limits location = .ok (some next) ↔ ∃ value depth pending,
      scan.pending = (value, depth) :: pending ∧ depth ≤ limits.valueDepth ∧
      scan.nodes + 1 + pending.length + value.children.length ≤ limits.valueNodes ∧
      scan.bytes + value.extensionBytes ≤ limits.valueBytes ∧
      next = ⟨(value.children.map fun child => (child, depth + 1)).reverse ++ pending,
        scan.nodes + 1, scan.bytes + value.extensionBytes⟩ := by
  unfold step
  cases hpending : scan.pending with
  | nil => simp
  | cons entry pending =>
    obtain ⟨value, depth⟩ := entry
    dsimp only
    constructor
    · intro h
      split_ifs at h with hdepth hnodes hprojected hbytes
      obtain rfl := Option.some.inj (Except.ok.inj h)
      exact ⟨value, depth, pending, rfl, by omega, by omega, by omega, rfl⟩
    · rintro ⟨_, _, _, heq, hdepth, hprojected, hbytes, rfl⟩
      obtain ⟨hentry, rfl⟩ := List.cons.inj heq
      obtain ⟨rfl, rfl⟩ := Prod.mk.inj hentry
      rw [if_neg (by omega), if_neg (by omega), if_neg (by omega), if_neg (by omega)]

theorem step_none {limits : ExtensionLimits} {location : Pointer} {scan : ValueScan} :
    scan.step limits location = .ok none ↔ scan.pending = [] := by
  unfold step
  cases hpending : scan.pending with
  | nil => simp
  | cons entry pending =>
    dsimp only
    split_ifs <;> simp

theorem step_remaining {limits : ExtensionLimits} {location : Pointer} {scan next : ValueScan}
    (h : scan.step limits location = .ok (some next)) : scan.remaining = next.remaining + 1 := by
  obtain ⟨value, depth, pending, hpending, -, -, -, rfl⟩ := step_some.mp h
  simp only [remaining, hpending, List.map_cons, List.sum_cons, List.map_append, List.map_reverse,
    List.sum_append, List.sum_reverse, List.map_map, Function.comp_def, value.nodeCount_children]
  omega

/-- The loop: every step visits one of the nodes that remain. -/
def run (limits : ExtensionLimits) (location : Pointer) (scan : ValueScan) :
    Except ExtensionValidationError Unit :=
  match _h : scan.step limits location with
  | .error error => .error error
  | .ok none => .ok ()
  | .ok (some next) => run limits location next
termination_by scan.remaining
decreasing_by
  have hremaining := step_remaining (by assumption)
  omega

end ValueScan

/-! ## Elements -/

structure ExtensionValidationState where
  namespaces : List String := []
  occurrences : Nat := 0

variable {isUri : String → Bool}

def validateExtension (limits : ExtensionLimits) (location : Pointer) (key : String)
    (value : Value) (state : ExtensionValidationState) :
    Except ExtensionValidationError ExtensionValidationState :=
  let namespaceLocation := location ++ ["value", "extensions", key]
  if key.utf8ByteSize > limits.namespaceBytes then
    .error (resource namespaceLocation "extension_namespace_bytes" limits.namespaceBytes
      key.utf8ByteSize)
  else if key ∉ state.namespaces ∧ state.namespaces.length ≥ limits.namespaces then
    .error (resource namespaceLocation "extension_namespaces" limits.namespaces
      (state.namespaces.length + 1))
  else
    let namespaces := if key ∈ state.namespaces then state.namespaces else key :: state.namespaces
    let occurrences := state.occurrences + 1
    if occurrences > limits.occurrences then
      .error (resource namespaceLocation "extension_occurrences" limits.occurrences occurrences)
    else do
      (ValueScan.start value).run limits namespaceLocation
      pure ⟨namespaces, occurrences⟩

def validateExtensionEntries (limits : ExtensionLimits) (location : Pointer) :
    List (String × Value) → ExtensionValidationState →
    Except ExtensionValidationError ExtensionValidationState
  | [], state => .ok state
  | (key, value) :: entries, state => do
    let state ← validateExtension limits location key value state
    validateExtensionEntries limits location entries state

mutual

def validateElementExtensions (limits : ExtensionLimits) (location : Pointer) :
    Element isUri → ExtensionValidationState →
    Except ExtensionValidationError ExtensionValidationState
  | .control control, state => validateControl limits location control state
  | .auto auto, state =>
    validateExtensionEntries limits location auto.metaValue.extensions.entries state
  | .stack stack, state => validateStack limits location stack state
  | .grid grid, state => validateGrid limits location grid state
  | .group group, state => validateGroup limits location group state
  | .tabs tabs, state => validateTabs limits location tabs state
  | .text text, state =>
    validateExtensionEntries limits location text.metaValue.extensions.entries state

def validateControl (limits : ExtensionLimits) (location : Pointer) :
    Control isUri (Element isUri) → ExtensionValidationState →
    Except ExtensionValidationError ExtensionValidationState
  | ⟨metaValue, _, _, _, _, itemTemplate, _⟩, state => do
    let state ← validateExtensionEntries limits location metaValue.extensions.entries state
    validateTemplate limits (location ++ ["value", "item_template"]) itemTemplate state

def validateStack (limits : ExtensionLimits) (location : Pointer) :
    Stack isUri (Element isUri) → ExtensionValidationState →
    Except ExtensionValidationError ExtensionValidationState
  | ⟨metaValue, children⟩, state => do
    let state ← validateExtensionEntries limits location metaValue.extensions.entries state
    validateChildren limits location 0 children state

def validateGrid (limits : ExtensionLimits) (location : Pointer) :
    Grid isUri (Element isUri) → ExtensionValidationState →
    Except ExtensionValidationError ExtensionValidationState
  | ⟨metaValue, cells⟩, state => do
    let state ← validateExtensionEntries limits location metaValue.extensions.entries state
    validateCells limits location 0 cells state

def validateGroup (limits : ExtensionLimits) (location : Pointer) :
    Group isUri (Element isUri) → ExtensionValidationState →
    Except ExtensionValidationError ExtensionValidationState
  | ⟨metaValue, _, child⟩, state => do
    let state ← validateExtensionEntries limits location metaValue.extensions.entries state
    validateElementExtensions limits (location ++ ["value", "child"]) child state

def validateTabs (limits : ExtensionLimits) (location : Pointer) :
    Tabs isUri (Element isUri) → ExtensionValidationState →
    Except ExtensionValidationError ExtensionValidationState
  | ⟨metaValue, panels⟩, state => do
    let state ← validateExtensionEntries limits location metaValue.extensions.entries state
    validatePanels limits location 0 panels state

def validateTemplate (limits : ExtensionLimits) (location : Pointer) :
    Option (Element isUri) → ExtensionValidationState →
    Except ExtensionValidationError ExtensionValidationState
  | none, state => .ok state
  | some template, state => validateElementExtensions limits location template state

def validateChildren (limits : ExtensionLimits) (location : Pointer) (index : Nat) :
    List (Element isUri) → ExtensionValidationState →
    Except ExtensionValidationError ExtensionValidationState
  | [], state => .ok state
  | child :: children, state => do
    let state ← validateElementExtensions limits
      (location ++ ["value", "children", Nat.repr index]) child state
    validateChildren limits location (index + 1) children state

def validateCell (limits : ExtensionLimits) (location : Pointer) :
    GridCell (Element isUri) → ExtensionValidationState →
    Except ExtensionValidationError ExtensionValidationState
  | ⟨_, _, child⟩, state => validateElementExtensions limits location child state

def validateCells (limits : ExtensionLimits) (location : Pointer) (index : Nat) :
    List (GridCell (Element isUri)) → ExtensionValidationState →
    Except ExtensionValidationError ExtensionValidationState
  | [], state => .ok state
  | cell :: cells, state => do
    let state ← validateCell limits
      (location ++ ["value", "cells", Nat.repr index, "child"]) cell state
    validateCells limits location (index + 1) cells state

def validatePanel (limits : ExtensionLimits) (location : Pointer) :
    TabPanel (Element isUri) → ExtensionValidationState →
    Except ExtensionValidationError ExtensionValidationState
  | ⟨_, child⟩, state => validateElementExtensions limits location child state

def validatePanels (limits : ExtensionLimits) (location : Pointer) (index : Nat) :
    List (TabPanel (Element isUri)) → ExtensionValidationState →
    Except ExtensionValidationError ExtensionValidationState
  | [], state => .ok state
  | panel :: panels, state => do
    let state ← validatePanel limits
      (location ++ ["value", "panels", Nat.repr index, "child"]) panel state
    validatePanels limits location (index + 1) panels state

end

/-! ## Schemas -/

/-- Each required namespace, the ones before it declared. -/
def validateRequired (limits : ExtensionLimits) :
    Nat → List (ExtensionNamespace isUri) → List String → Except ExtensionValidationError Unit
  | _, [], _ => .ok ()
  | index, key :: required, declared =>
    let location := ["required_extensions", Nat.repr index]
    if index ≥ limits.namespaces then
      .error (resource location "extension_namespaces" limits.namespaces (index + 1))
    else if key.text.utf8ByteSize > limits.namespaceBytes then
      .error (resource location "extension_namespace_bytes" limits.namespaceBytes
        key.text.utf8ByteSize)
    else if key.text ∈ declared then .error (invalid location .duplicateRequiredExtension)
    else validateRequired limits (index + 1) required (key.text :: declared)

/-- Each required namespace is used. -/
def checkRequiredUsed (namespaces : List String) :
    Nat → List (ExtensionNamespace isUri) → Except ExtensionValidationError Unit
  | _, [] => .ok ()
  | index, key :: required =>
    if key.text ∉ namespaces then
      .error (invalid ["required_extensions", Nat.repr index] .missingRequiredExtension)
    else checkRequiredUsed namespaces (index + 1) required

def UiSchema.validateExtensions (limits : ExtensionLimits) (schema : UiSchema isUri) :
    Except ExtensionValidationError Unit := do
  validateRequired limits 0 schema.requiredExtensions []
  let state ← validateElementExtensions limits ["root"] schema.root {}
  checkRequiredUsed state.namespaces 0 schema.requiredExtensions

end Schemaform.Ui.V1
