import Schemaform.Engine.Items
import Schemaform.Lib.OrderedToggle

/-!
# Engine.ToggleSpec

Toggling the options of a multiple choice.

* `members`: the items of an array, each with its identity.
* `ChoiceToggled`: all members of the value removed, or the option put in before the first later
  one; everything else is kept.
* `toggleArrayChoice_toggled`: what a toggle does.
* `ChoiceToggled.toggled`: the same as toggling a key in an ordered list of keys.
-/

namespace Schemaform.Engine

open ListEdit OrderedToggle

/-- The items of an array by identity and value. -/
def Form.members (form : Form) (binding : Pointer) : List (Nat × Value) :=
  ((form.arrayItemIdentities binding).getD []).zip (arrayValues binding form.formData)

namespace Form

def isLater (options : List Value) (position : Nat) (member : Value) : Bool :=
  (optionPosition options member).any fun later => decide (later > position)

/-- A member is removed with every other one of its value; another value is put in once, before
the first member that is a later option. -/
inductive ChoiceToggled (options : List Value) (value : Value) :
    List (Nat × Value) → List (Nat × Value) → Prop where
  | excluded {members : List (Nat × Value)}
      (present : ∃ m ∈ members, jsonValuesEqual m.2 value = true) :
      ChoiceToggled options value members (members.filter fun m => !jsonValuesEqual m.2 value)
  | included {before after : List (Nat × Value)} {identity position : Nat} {option : Value}
      (position_eq : optionPosition options value = some position)
      (option_eq : options[position]? = some option)
      (fresh : ∀ m ∈ before ++ after, m.1 ≠ identity)
      (absent : ∀ m ∈ before ++ after, jsonValuesEqual m.2 value = false)
      (earlier : ∀ m ∈ before, isLater options position m.2 = false)
      (later : ∀ m ∈ after.head?, isLater options position m.2 = true) :
      ChoiceToggled options value (before ++ after) (before ++ (identity, option) :: after)

/-- The option of a value compares as the value does. -/
theorem equal_option {options : List Value} {value option member : Value} {position : Nat}
    (hoptions : ∀ o ∈ options, o.WF) (hvalue : value.WF) (hmember : member.WF)
    (hposition : optionPosition options value = some position)
    (hoption : options[position]? = some option) :
    jsonValuesEqual member option = jsonValuesEqual member value := by
  obtain ⟨option', ho, hequal⟩ := findIdx?_some hposition
  obtain rfl := Option.some.inj (hoption.symm.trans ho)
  have hwf := hoptions option (List.mem_of_getElem? hoption)
  rw [Bool.eq_iff_iff]
  constructor
  · exact fun h => jsonValuesEqual_trans hmember hwf hvalue h hequal
  · exact fun h => jsonValuesEqual_trans hmember hvalue hwf h (jsonValuesEqual_symm hwf hvalue hequal)

variable {definition : FormDefinition} {numbers : NumberInput} {form form' : Form}
    {binding : Pointer}
  {array : ArrayState}

/-- Identities and values of a coherent array are two sides of its members. -/
theorem members_eq (hinv : form.Inv definition numbers) (ha : form.array binding = some array) :
    (form.members binding).map Prod.fst = array.identities ∧
      (form.members binding).map Prod.snd = arrayValues binding form.formData := by
  obtain ⟨hmem, rfl⟩ := array_mem ha
  have hlen := (hinv.coherent.arrays array hmem).length_eq
  have hids : (form.arrayItemIdentities array.definition.binding).getD [] = array.identities := by
    rw [arrayItemIdentities, ha]
    rfl
  have hlength : array.identities.length =
      (arrayValues array.definition.binding form.formData).length := by
    rw [ArrayState.identities, List.length_map, hlen]
  rw [members, hids]
  exact ⟨List.map_fst_zip hlength.le, List.map_snd_zip hlength.ge⟩

/-- What an edit of the items leaves as members. -/
theorem members_of_write {index next : Nat} {values' : List Value} {formData : Value}
    {items' : List ArrayItemState} (members' : List (Nat × Value))
    (hw : form.ItemsWrite binding index array values' next formData)
    (hids : members'.map Prod.fst = items'.map (·.identity))
    (hvalues : members'.map Prod.snd = values') :
    ((form.writeItems index items' next formData).dataChanged).members binding = members' := by
  have hafter := (hw.replaced items' true true).after
  have hdata : arrayValues binding formData = values' := arrayValues_of_resolve hw.write.at_self
  rw [List.zip_of_prod hids hvalues]
  show ((arrayItemIdentities _ binding).getD []).zip (arrayValues binding formData) = _
  rw [hdata]
  exact congrArg (fun ids => (ids.getD []).zip values') hafter

theorem array_definition (hs : form.Shaped definition) (binding : Pointer) :
    (form.array binding).map (·.definition) =
      definition.arrays.find? (·.binding == binding) := by
  rw [array, ← hs.arrays, List.find?_map]
  rfl

theorem toggleArrayChoice_toggled (hd : definition.WellFormed) (hinv : form.Inv definition numbers)
    {value : Value} (hvalue : value.WF) {toggled : ToggledArrayChoice}
    (h : form.toggleArrayChoice binding value = (form', .ok toggled)) :
    ∃ array position, form.array binding = some array ∧
      optionPosition array.definition.choices value = some position ∧
      ChoiceToggled array.definition.choices value (form.members binding)
        (form'.members binding) := by
  rcases toggleArrayChoice_exact h with ⟨_, e, hr⟩ | ⟨index, array, option, position, _, formData,
    _, hposition, hoption, _, hcases⟩
  · cases hr
  have ha : form.array binding = some array := by
    rcases hcases with ⟨_, _, hw, _⟩ | ⟨_, _, _, _, hw, _⟩
    · exact hw.array_eq
    · exact hw.array_eq
  refine ⟨array, position, ha, hposition, ?_⟩
  obtain ⟨hids, hvalues⟩ := members_eq hinv ha
  have hchoices : ∀ o ∈ array.definition.choices, o.WF := fun o ho =>
    mem_choices_wf hd (hinv.shaped.array_mem (array_mem ha).1) ho
  have hmembers : ∀ m ∈ form.members binding, m.2.WF := fun m hm =>
    arrayValues_wf hinv.formData_wf m.2 (hvalues ▸ List.mem_map_of_mem hm)
  have hequal : ∀ m ∈ form.members binding,
      jsonValuesEqual m.2 option = jsonValuesEqual m.2 value := fun m hm =>
    equal_option hchoices hvalue (hmembers m hm) hposition hoption
  have hcarrying : carrying (arrayValues binding form.formData) option =
      indicesWhere (fun m => jsonValuesEqual m.2 option) (form.members binding) := by
    rw [← hvalues, ← indicesWhere_map (jsonValuesEqual · option)]
    rfl
  rcases hcases with ⟨hnone, _, hw, rfl⟩ | ⟨first, rest, hfr, _, hw, rfl⟩
  · rw [hcarrying, indicesWhere_eq_nil] at hnone
    obtain ⟨before, after, hsplit, hinsert, hearlier, hlater⟩ := insertIdx_findIdx?
      (fun m => isLater array.definition.choices position m.2) (form.members binding)
      (form.nextItemIdentity, option)
    have hat : choiceInsertPosition array.definition.choices (arrayValues binding form.formData)
        position = ((form.members binding).findIdx? fun m =>
          isLater array.definition.choices position m.2).getD (form.members binding).length := by
      rw [choiceInsertPosition, ← hvalues, List.findIdx?_map, List.length_map]
      rfl
    rw [hat] at hw ⊢
    rw [members_of_write (before ++ (form.nextItemIdentity, option) :: after) hw
      (by rw [← hinsert, List.map_insertIdx, List.map_insertIdx, hids]; rfl)
      (by rw [← hinsert, List.map_insertIdx, hvalues]), hsplit]
    refine .included hposition hoption (fun m hm heq => ?_) (fun m hm => ?_) hearlier hlater
    · rw [← hsplit] at hm
      refine hinv.next_not_mem (array_mem ha).1 ?_
      rw [← hids, ← heq]
      exact List.mem_map_of_mem hm
    · rw [← hsplit] at hm
      rw [← hequal m hm]
      exact hnone m hm
  · rw [hcarrying] at hw hfr ⊢
    have hfilter : (form.members binding).filter (fun m => !jsonValuesEqual m.2 value) =
        eraseIndices (form.members binding)
          (indicesWhere (fun m => jsonValuesEqual m.2 option) (form.members binding)) := by
      rw [eraseIndices_indicesWhere]
      exact List.filter_congr fun m hm => by rw [hequal m hm]
    rw [members_of_write (eraseIndices (form.members binding)
        (indicesWhere (fun m => jsonValuesEqual m.2 option) (form.members binding))) hw
      (by rw [map_eraseIndices, map_eraseIndices, hids]; rfl)
      (by rw [map_eraseIndices, hvalues]), ← hfilter]
    refine .excluded ?_
    by_contra hno
    have hnil : indicesWhere (fun m => jsonValuesEqual m.2 option) (form.members binding) = [] := by
      rw [indicesWhere_eq_nil]
      intro m hm
      rw [hequal m hm]
      cases hm' : jsonValuesEqual m.2 value with
      | false => rfl
      | true => exact absurd ⟨m, hm, hm'⟩ hno
    rw [hnil] at hfr
    cases hfr

/-! ## Option order -/

/-- A well-formed value has the position of the options it equals. -/
theorem equal_iff_position {options : List Value} {value member : Value} {position : Nat}
    (hoptions : ∀ o ∈ options, o.WF) (hvalue : value.WF) (hmember : member.WF)
    (hposition : optionPosition options value = some position) :
    jsonValuesEqual member value = true ↔ optionPosition options member = some position := by
  constructor
  · intro h
    rw [← hposition, optionPosition, optionPosition]
    refine findIdx?_congr _ fun o ho => ?_
    have hwf := hoptions o ho
    rw [Bool.eq_iff_iff]
    constructor
    · exact fun ho => jsonValuesEqual_trans hwf hmember hvalue ho h
    · exact fun ho => jsonValuesEqual_trans hwf hvalue hmember ho
        (jsonValuesEqual_symm hmember hvalue h)
  · intro h
    obtain ⟨option, hoption, hequal⟩ := findIdx?_some h
    rw [← equal_option hoptions hvalue hmember hposition hoption]
    exact jsonValuesEqual_symm (hoptions option (List.mem_of_getElem? hoption)) hmember hequal

/-- Toggling a value is toggling its position in the order of the options. -/
theorem ChoiceToggled.toggled {options : List Value} {value : Value} {position : Nat}
    {members members' : List (Nat × Value)} (h : ChoiceToggled options value members members')
    (hoptions : ∀ o ∈ options, o.WF) (hvalue : value.WF) (hmembers : ∀ m ∈ members, m.2.WF)
    (hposition : optionPosition options value = some position) :
    ∃ entry, options[position]? = some entry.2 ∧ optionPosition options entry.2 = some position ∧
      Toggled (fun m => optionPosition options m.2) entry position members members' := by
  have hequal {m : Nat × Value} (hm : m ∈ members) :
      jsonValuesEqual m.2 value = true ↔ optionPosition options m.2 = some position :=
    equal_iff_position hoptions hvalue (hmembers m hm) hposition
  obtain ⟨option, hoption, hoptionEqual⟩ := findIdx?_some hposition
  have hself : optionPosition options option = some position :=
    (equal_iff_position hoptions hvalue (hoptions option (List.mem_of_getElem? hoption))
      hposition).mp hoptionEqual
  have hlater {m : Nat × Value} : isLater options position m.2 = true ↔
      ∃ later, optionPosition options m.2 = some later ∧ position < later := by
    rw [isLater, Option.any_eq_true]
    simp only [gt_iff_lt, decide_eq_true_eq]
  cases h with
  | excluded present =>
    refine ⟨(0, option), hoption, hself, ?_⟩
    have hfilter : (members.filter fun m => !jsonValuesEqual m.2 value) =
        members.filter fun m => decide (optionPosition options m.2 ≠ some position) := by
      refine List.filter_congr fun m hm => ?_
      rw [Bool.eq_iff_iff, Bool.not_eq_true', decide_eq_true_eq, ← Bool.not_eq_true, ne_eq, hequal hm]
    rw [hfilter]
    obtain ⟨m, hm, heq⟩ := present
    exact .removed ⟨m, hm, (hequal hm).mp heq⟩
  | @included before after identity position' option' position_eq option_eq fresh absent earlier
      later =>
    obtain rfl := Option.some.inj (hposition.symm.trans position_eq)
    obtain rfl := Option.some.inj (hoption.symm.trans option_eq)
    refine ⟨(identity, option), hoption, hself, .inserted (fun m hm hkey => ?_)
      (fun m hm j hkey hlt => ?_) fun m hm => ?_⟩
    · have := (hequal hm).mpr hkey
      rw [absent m hm] at this
      cases this
    · have := hlater.mpr ⟨j, hkey, hlt⟩
      rw [earlier m hm] at this
      cases this
    · exact hlater.mp (later m hm)

end Form

end Schemaform.Engine
