import Schemaform.Engine.ToggleSpec
import Schemaform.Form.Agreement

/-!
# Form.Toggling

The options of a multiple choice, toggled one after another.

* `MultipleChoice`: an array node that offers toggling, with its binding and its options.
* `Toggles`: a run of toggles of one array, each of them successful.
* `toggleChoice_members`: one toggle; `toggles_keyed`: a run of them.
* `toggleChoice_law`.
-/

namespace Schemaform

open Engine.Form (ChoiceToggled optionPosition)
open OrderedToggle (toggle toggle_sorted toggle_toggle foldl_toggle_nil)

namespace Form

variable {form form' : Form} {array : InstanceIdentity} {binding : Pointer} {options : List Value}

structure MultipleChoice (form : Form) (array : InstanceIdentity) (binding : Pointer)
    (options : List Value) : Prop where
  offered : ∃ node, form.node array = some node ∧ node.allowedOperations.toggleChoice = true ∧
    node.binding = some binding ∧ node.definition.choiceOptions = options

/-- Values toggled in turn, all of them successfully. -/
inductive Toggles (array : InstanceIdentity) : Form → List Value → Form → Prop where
  | nil {form : Form} : Toggles array form [] form
  | cons {form form' form'' : Form} {value : Value} {values : List Value} {t : Transition}
      (hvalue : value.WF) (first : form.toggleChoice array value = (form', .ok t))
      (rest : Toggles array form' values form'') : Toggles array form (value :: values) form''

/-- The values of the array, as items with their identities. -/
def members (form : Form) (binding : Pointer) : List (Nat × Value) := form.engine.members binding

/-- The options toggled an odd number of times, in option order. -/
def oddOptions (options values : List Value) : List Value :=
  ((List.range options.length).filter fun i =>
    decide ((values.countP fun v => optionPosition options v == some i) % 2 = 1)).filterMap
      fun i => options[i]?

/-- Every item is an option, each a later one than the item before. -/
def InOptionOrder (options values : List Value) : Prop :=
  ∃ positions : List Nat, positions.Pairwise (· < ·) ∧
    List.Forall₂ (fun v i => optionPosition options v = some i) values positions

/-! ## One toggle -/

/-- The node that offers toggling, and the array it is. -/
theorem toggling_at (hinv : form.Inv) {node : NodeView} (hnode : form.node array = some node)
    (h : node.allowedOperations.toggleChoice = true) :
    ∃ binding arrayState, form.ArrayAt node binding arrayState := by
  obtain ⟨binding, arrayState, template, ho⟩ :=
    itemsOffer hinv hnode (·.toggleChoice) rfl (fun _ => rfl) rfl h
  exact ⟨binding, arrayState, ho.at_⟩

/-- An array node and the options of the array it is bound to. -/
structure ChoiceArray (form : Form) (array : InstanceIdentity) (binding : Pointer)
    (options : List Value) : Prop where
  bound : (form.definition.inner.nodes[array.node]?).bind (·.binding) = some binding
  choices : ∃ arrayState, form.engine.array binding = some arrayState ∧
    arrayState.definition.choices = options

theorem MultipleChoice.choiceArray (hinv : form.Inv)
    (h : form.MultipleChoice array binding options) : form.ChoiceArray array binding options := by
  obtain ⟨node, hnode, hallowed, hb, hoptions⟩ := h.offered
  obtain ⟨binding', arrayState, hat⟩ := toggling_at hinv hnode hallowed
  obtain rfl := Option.some.inj (hb.symm.trans hat.bound)
  obtain ⟨_, _, _, hd, _⟩ := node_eq_some.mp hnode
  refine ⟨?_, arrayState, hat.array_eq, hat.choiceOptions ▸ hoptions⟩
  rw [hd, Option.bind_some, hat.definitionBinding]

theorem ChoiceArray.options_wf (hinv : form.Inv) (h : form.ChoiceArray array binding options) :
    ∀ o ∈ options, o.WF := by
  obtain ⟨arrayState, ha, rfl⟩ := h.choices
  exact fun _ ho => Engine.Form.mem_choices_wf form.engine_wf
    (hinv.shaped.array_mem (Engine.Form.array_mem ha).1) ho

theorem ChoiceArray.members_wf (hinv : form.Inv) (h : form.ChoiceArray array binding options) :
    ∀ m ∈ form.members binding, m.2.WF := by
  obtain ⟨arrayState, ha, rfl⟩ := h.choices
  intro m hm
  have hvalues := (Engine.Form.members_eq hinv ha).2
  exact Engine.arrayValues_wf hinv.formData_wf m.2 (hvalues ▸ List.mem_map_of_mem hm)

/-- What a successful toggle does to the members; the array keeps its options. -/
theorem toggleChoice_members (hinv : form.Inv) (hc : form.ChoiceArray array binding options)
    {value : Value} (hvalue : value.WF) {t : Transition}
    (h : form.toggleChoice array value = (form', .ok t)) :
    (∃ position, optionPosition options value = some position) ∧
      ChoiceToggled options value (form.members binding) (form'.members binding) ∧
      form'.ChoiceArray array binding options := by
  have heffect := toggleChoice_effect hinv h
  obtain ⟨arrayState, ha, rfl⟩ := hc.choices
  rcases toggleChoice_cases h with ⟨_, _, hr⟩ | ⟨binding', _, engine, _, _, ⟨hp, he⟩, rfl, _⟩
  · cases hr
  obtain ⟨node, hnode, hallowed, hb⟩ := hp
  obtain ⟨hbinding', -⟩ := MultipleChoice.choiceArray hinv ⟨node, hnode, hallowed, hb, rfl⟩
  obtain rfl := Option.some.inj (hc.bound.symm.trans hbinding')
  obtain ⟨arrayState', position, ha', hposition, htoggled⟩ :=
    Engine.Form.toggleArrayChoice_toggled form.engine_wf hinv hvalue he
  obtain rfl := Option.some.inj (ha.symm.trans ha')
  refine ⟨⟨position, hposition⟩, htoggled, heffect.definition ▸ hc.bound, ?_⟩
  -- the definitions of the arrays are as they were
  have hbefore := Engine.Form.array_definition hinv.shaped binding
  have hafter := Engine.Form.array_definition heffect.inv.shaped binding
  rw [heffect.definition, ← hbefore, ha, Option.map_some, Option.map_eq_some_iff] at hafter
  obtain ⟨arrayState', ha', hd⟩ := hafter
  exact ⟨arrayState', ha', by rw [hd]⟩

/-! ## Runs of toggles -/

/-- What is known of members in step with positions, kept by a run. -/
structure Keyed (options : List Value) (R : Nat × Value → Nat → Prop) : Prop where
  position : ∀ m i, R m i → optionPosition options m.2 = some i
  option : ∀ m i, options[i]? = some m.2 → optionPosition options m.2 = some i → R m i

theorem toggles_keyed {R : Nat × Value → Nat → Prop} (hR : Keyed options R) {values : List Value}
    (h : Toggles array form values form') (hinv : form.Inv)
    (hc : form.ChoiceArray array binding options) {positions : List Nat}
    (hkeyed : List.Forall₂ R (form.members binding) positions) :
    ∃ toggled : List Nat, values.map (optionPosition options) = toggled.map some ∧
      List.Forall₂ R (form'.members binding)
        (toggled.foldl (fun is i => toggle i is) positions) := by
  induction h generalizing positions with
  | nil => exact ⟨[], rfl, hkeyed⟩
  | @cons form form' form'' value values t hvalue first rest ih =>
    obtain ⟨⟨i, hposition⟩, hstep, hc'⟩ := toggleChoice_members hinv hc hvalue first
    obtain ⟨entry, hoption, hself, htoggled⟩ :=
      hstep.toggled (hc.options_wf hinv) hvalue (hc.members_wf hinv) hposition
    have hentry : R entry i := hR.option entry i hoption hself
    obtain ⟨toggled, hmap, hfinal⟩ := ih (toggleChoice_effect hinv first).inv hc'
      (htoggled.keyed hR.position hentry hkeyed)
    exact ⟨i :: toggled, by rw [List.map_cons, hmap, hposition]; rfl, hfinal⟩

theorem Toggles.choiceArray {values : List Value} (h : Toggles array form values form')
    (hinv : form.Inv) (hc : form.ChoiceArray array binding options) :
    form'.Inv ∧ form'.ChoiceArray array binding options := by
  induction h with
  | nil => exact ⟨hinv, hc⟩
  | cons hvalue first _ ih =>
    exact ih (toggleChoice_effect hinv first).inv (toggleChoice_members hinv hc hvalue first).2.2

theorem keyed_position (options : List Value) :
    Keyed options fun m i => optionPosition options m.2 = some i :=
  ⟨fun _ _ h => h, fun _ _ _ h => h⟩

theorem keyed_option (options : List Value) : Keyed options fun m i =>
    options[i]? = some m.2 ∧ optionPosition options m.2 = some i :=
  ⟨fun _ _ h => h.2, fun _ _ h h' => ⟨h, h'⟩⟩

/-- Members in step with positions and spelled as the options there. -/
theorem values_of_keyed {members : List (Nat × Value)} {positions : List Nat}
    (h : List.Forall₂ (fun m i => options[i]? = some m.2 ∧ optionPosition options m.2 = some i)
      members positions) : members.map Prod.snd = positions.filterMap fun i => options[i]? := by
  induction h with
  | nil => rfl
  | cons hmi _ ih => rw [List.map_cons, List.filterMap_cons_some hmi.1, ih]

theorem toggles_empty {values : List Value} (h : Toggles array form values form')
    (hinv : form.Inv) (hc : form.ChoiceArray array binding options)
    (hempty : form.members binding = []) :
    (form'.members binding).map Prod.snd = oddOptions options values := by
  have hnone : List.Forall₂ (fun m i => options[i]? = some m.2 ∧
      optionPosition options m.2 = some i) (form.members binding) [] := by
    rw [hempty]
    exact .nil
  obtain ⟨toggled, hmap, hkeyed⟩ := toggles_keyed (keyed_option options) h hinv hc hnone
  have hlt : ∀ i ∈ toggled, i < options.length := by
    intro i hi
    have hmem : some i ∈ values.map (optionPosition options) := hmap ▸ List.mem_map_of_mem hi
    obtain ⟨v, _, hv⟩ := List.mem_map.mp hmem
    exact (List.findIdx?_eq_some_iff_getElem.mp hv).1
  have hcount (i : Nat) : toggled.count i =
      values.countP fun v => optionPosition options v == some i := by
    have hmapped : toggled.count i = (toggled.map some).countP (· == some i) := by
      rw [List.countP_map]
      rfl
    rw [hmapped, ← hmap, List.countP_map]
    rfl
  rw [foldl_toggle_nil toggled hlt] at hkeyed
  rw [values_of_keyed hkeyed, oddOptions]
  simp only [hcount]

/-- A value toggled twice leaves the positions as they were. -/
theorem toggles_twice {R : Nat × Value → Nat → Prop} (hR : Keyed options R) {value : Value}
    (h : Toggles array form [value, value] form') (hinv : form.Inv)
    (hc : form.ChoiceArray array binding options) {positions : List Nat}
    (hsorted : positions.Pairwise (· < ·))
    (hkeyed : List.Forall₂ R (form.members binding) positions) :
    List.Forall₂ R (form'.members binding) positions := by
  obtain ⟨toggled, hmap, hfinal⟩ := toggles_keyed hR h hinv hc hkeyed
  have hpair : ∃ i, toggled = [i, i] := by
    rw [List.map_cons, List.map_cons, List.map_nil, eq_comm, List.map_eq_cons_iff] at hmap
    obtain ⟨i, rest, rfl, hi, hmap⟩ := hmap
    obtain ⟨j, rest, rfl, hj, hmap⟩ := List.map_eq_cons_iff.mp hmap
    obtain rfl := List.map_eq_nil_iff.mp hmap
    exact ⟨i, by rw [Option.some.inj (hi.trans hj.symm)]⟩
  obtain ⟨i, rfl⟩ := hpair
  rw [List.foldl_cons, List.foldl_cons, List.foldl_nil, toggle_toggle hsorted] at hfinal
  exact hfinal

/-- Members at one position are equal values. -/
theorem equal_of_keyed (hoptions : ∀ o ∈ options, o.WF) {left right : List (Nat × Value)}
    (hleft : ∀ m ∈ left, m.2.WF) (hright : ∀ m ∈ right, m.2.WF) {positions : List Nat}
    (hl : List.Forall₂ (fun m i => optionPosition options m.2 = some i) left positions)
    (hr : List.Forall₂ (fun m i => optionPosition options m.2 = some i) right positions) :
    List.Forall₂ (fun a b => jsonValuesEqual a b = true) (left.map Prod.snd)
      (right.map Prod.snd) := by
  induction hl generalizing right with
  | nil =>
    cases hr
    exact .nil
  | @cons m i left positions hm _ ih =>
    cases hr with
    | @cons w _ right _ hw hr =>
      obtain ⟨hmwf, hleft⟩ := List.forall_mem_cons.mp hleft
      obtain ⟨hwwf, hright⟩ := List.forall_mem_cons.mp hright
      exact .cons ((Engine.Form.equal_iff_position hoptions hwwf hmwf hw).mpr hm)
        (ih hleft hright hr)

/-- Members of one array, toggled. -/
structure ToggleLaw (form : Form) (array : InstanceIdentity) (binding : Pointer)
    (options : List Value) : Prop where
  /-- One toggle, of any value equal to an option. -/
  step : ∀ value form' t, value.WF → form.toggleChoice array value = (form', .ok t) →
    (∃ option ∈ options, jsonValuesEqual option value = true) ∧
      ChoiceToggled options value (form.members binding) (form'.members binding)
  /-- From an absent or empty array. -/
  odd : form.members binding = [] → ∀ values form', Toggles array form values form' →
    (form'.members binding).map Prod.snd = oddOptions options values
  /-- From options in order: restored, and as they were spelled where they are spelled as the
  options are. -/
  twice : InOptionOrder options ((form.members binding).map Prod.snd) →
    ∀ value form', Toggles array form [value, value] form' →
      List.Forall₂ (fun a b => jsonValuesEqual a b = true)
        ((form.members binding).map Prod.snd) ((form'.members binding).map Prod.snd) ∧
      ((∀ m ∈ form.members binding, ∀ i, optionPosition options m.2 = some i →
          options[i]? = some m.2) →
        (form'.members binding).map Prod.snd = (form.members binding).map Prod.snd)

theorem toggleChoice_law : ∀ form, formSystem.Reachable form → ∀ array binding options,
    form.MultipleChoice array binding options → form.ToggleLaw array binding options := by
  intro form hreachable array binding options hm
  have hinv := reachable_inv hreachable
  have hc := hm.choiceArray hinv
  refine ⟨fun value form' t hvalue h => ?_, fun hempty values form' h => ?_,
    fun horder value form' h => ?_⟩
  · obtain ⟨⟨position, hposition⟩, hstep, -⟩ := toggleChoice_members hinv hc hvalue h
    obtain ⟨option, hoption, hequal⟩ := Engine.Form.findIdx?_some hposition
    exact ⟨⟨option, List.mem_of_getElem? hoption, hequal⟩, hstep⟩
  · exact toggles_empty h hinv hc hempty
  · obtain ⟨positions, hsorted, hkeyed⟩ := horder
    rw [List.forall₂_map_left_iff] at hkeyed
    have hc' := h.choiceArray hinv hc
    have hagain := toggles_twice (keyed_position options) h hinv hc hsorted hkeyed
    refine ⟨equal_of_keyed (hc.options_wf hinv) (hc.members_wf hinv) (hc'.2.members_wf hc'.1) hkeyed
      hagain, fun hspelled => ?_⟩
    have hoption : List.Forall₂ (fun m i => options[i]? = some m.2 ∧
        optionPosition options m.2 = some i) (form.members binding) positions :=
      ListEdit.forall₂_imp_mem hkeyed fun m hm i hi => ⟨hspelled m hm i hi, hi⟩
    rw [values_of_keyed hoption,
      values_of_keyed (toggles_twice (keyed_option options) h hinv hc hsorted hoption)]

end Form

/-! ## Two letters -/

namespace Sample

def letter : Engine.ControlDefinition :=
  { item with kind := .choice, choices := [.string "a", .string "b"],
              creationSeed := some (.string "a") }

def letterArray : Engine.ArrayDefinition :=
  { array with uniqueItems := true, itemTemplate := ⟨[letter], [], .string "a"⟩ }

def letters : FormDefinition where
  inner := listInner letterArray letter
  wellFormed :=
    DefinitionInner.wellFormed_of_checked (by decide) (by decide) (by decide) (by decide) rfl

/-- The form built on an empty multiple choice. -/
def noLetters : Form :=
  { empty with definition := letters,
               engine := { empty.engine with arrays := [⟨letterArray, [], false⟩] } }

theorem noLetters_reachable : formSystem.Reachable noLetters :=
  .init ⟨{ definition := letters, formData := formData [] }, 0, by decide, rfl⟩

theorem noLetters_multipleChoice :
    noLetters.MultipleChoice ⟨0, 1, none⟩ ["a"] [.string "a", .string "b"] :=
  ⟨⟨_, rfl, rfl, rfl, rfl⟩⟩

example : let form := (noLetters.toggleChoice ⟨0, 1, none⟩ (.string "b")).1
    (form.toggleChoice ⟨0, 1, none⟩ (.string "a")).1.members ["a"] =
      [(2, .string "a"), (1, .string "b")] := by rfl

end Sample

open Sample in
theorem Form.toggleChoice_law_letters :
    noLetters.ToggleLaw ⟨0, 1, none⟩ ["a"] [.string "a", .string "b"] :=
  Form.toggleChoice_law noLetters noLetters_reachable _ _ _ noLetters_multipleChoice

end Schemaform
