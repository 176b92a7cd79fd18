import Schemaform.Engine.LifecycleSpec

/-!
# Engine.Items

Which items each array has, before and after an operation.

* `itemTable`: the arrays with their item identities.
* `editText_table`, `setValue_table`, `blur_table`, `removeValue_table`, `prepareSubmission_table`:
  nothing that happens inside a control touches the table.
* `ItemsReplaced`: one array with other items, every other array as it was.
* `ItemsStep`: the edit of the data an array operation makes, and the item states it leaves.
-/

namespace Schemaform.Engine

open ListEdit (swap eraseIndices map_modify map_modify_comm find?_modify_key)

namespace Form

variable {form form' : Form} {binding : Pointer}

def itemTable (form : Form) : List (Pointer × List Nat) :=
  form.arrays.map fun array => (array.definition.binding, array.identities)

theorem arrayItemIdentities_eq (form : Form) (binding : Pointer) :
    form.arrayItemIdentities binding =
      (form.itemTable.find? (·.1 == binding)).map (·.2) := by
  rw [itemTable, List.find?_map, Option.map_map]
  rfl

theorem arrayItemIdentities_congr (h : form'.itemTable = form.itemTable) (binding : Pointer) :
    form'.arrayItemIdentities binding = form.arrayItemIdentities binding := by
  rw [arrayItemIdentities_eq, arrayItemIdentities_eq, h]

/-! ## Inside a control -/

theorem modifyControl_table (form : Form) (edit : ControlState → ControlState)
    (location : ControlLocation) : (form.modifyControl edit location).itemTable = form.itemTable := by
  cases location with
  | static i => rfl
  | arrayItem a i k =>
    refine map_modify ?_ a form.arrays
    intro array
    refine Prod.ext rfl (map_modify ?_ i array.items)
    intro _; rfl

theorem mapControls_table (form : Form) (edit : ControlState → ControlState) :
    (form.mapControls edit).itemTable = form.itemTable := by
  simp only [itemTable, mapControls, List.map_map]
  refine List.map_congr_left fun array _ => Prod.ext rfl ?_
  simp only [Function.comp, ArrayState.identities, List.map_map]
  rfl

theorem editText_table {input : String} {numbers : NumberInput} {r : Except EditError Unit}
    (h : form.editTextWithIntegerDigitLimit numbers.parser binding input numbers.maximumDigits =
      (form', r)) :
    form'.itemTable = form.itemTable := by
  rcases editText_cases h with ⟨rfl, _⟩ | ⟨_, edit, control, formData, _, _, rfl⟩
  · rfl
  · exact modifyControl_table { form with formData } _ edit.location

theorem setValue_table {value : Value} {r : Except EditError Unit}
    (h : form.setValue binding value = (form', r)) : form'.itemTable = form.itemTable := by
  rcases setValue_cases h with
    ⟨rfl, _⟩ | ⟨_, control, location, _, _, ⟨rfl, _⟩ | ⟨formData, _, _, rfl⟩⟩
  · rfl
  · rfl
  · exact modifyControl_table { form with formData } _ location

theorem blur_table {r : Except EditError Unit} (h : form.blur binding = (form', r)) :
    form'.itemTable = form.itemTable := by
  rcases blur_cases h with
    ⟨rfl, _⟩ | ⟨_, _, location, _, rfl⟩ | ⟨_, index, _, _, _, _, ⟨_, rfl⟩ | ⟨_, rfl⟩⟩
  · rfl
  · exact modifyControl_table form _ location
  · rfl
  · refine map_modify ?_ index form.arrays
    intro _; rfl

theorem prepareSubmission_table (form : Form) :
    form.prepareSubmission.1.itemTable = form.itemTable :=
  mapControls_table { form with submissionAttempted := true } _

/-! ## A value without arrays below it -/

theorem clearEditStateBelow_table (form : Form) (binding : Pointer) :
    (form.clearEditStateBelow binding).itemTable = form.itemTable := by
  have h := congrArg (List.map fun entry => (entry.1.binding, entry.2)) (clear_arrays form binding)
  rwa [List.map_map, List.map_map] at h

theorem reconcileArrays_eq_self {formData : Value} {arrays : List ArrayState}
    (h : ∀ a ∈ arrays, a.definition.binding.startsWith binding = false) (next : Nat) :
    reconcileArrays binding formData arrays next = (arrays, next) := by
  induction arrays with
  | nil => rfl
  | cons a arrays ih =>
    obtain ⟨ha, hrest⟩ := List.forall_mem_cons.mp h
    rw [reconcileArrays, if_neg (Bool.eq_false_iff.mp ha), ih hrest]

theorem removeValue_table {r : Except EditError Unit}
    (hbelow : ∀ a ∈ form.arrays, a.definition.binding.startsWith binding = false)
    (h : form.removeValue binding = (form', r)) : form'.itemTable = form.itemTable := by
  rcases removeValue_cases h with ⟨rfl, _⟩ | ⟨_, formData, _, rfl⟩
  · rfl
  · have hreconciled : ({ form with formData }.reconcileAuthoritativeArrays binding).itemTable =
        form.itemTable := by
      unfold reconcileAuthoritativeArrays
      rw [reconcileArrays_eq_self hbelow]
      rfl
    exact (clearEditStateBelow_table _ binding).trans hreconciled

/-! ## One array -/

/-- The items of one array before and after; all other arrays keep theirs. -/
structure ItemsReplaced (form form' : Form) (binding : Pointer) (before after : List Nat) :
    Prop where
  before : form.arrayItemIdentities binding = some before
  after : form'.arrayItemIdentities binding = some after
  others : ∀ other, other ≠ binding →
    form'.arrayItemIdentities other = form.arrayItemIdentities other

theorem ItemsWrite.replaced {index next : Nat} {array : ArrayState} {values' : List Value}
    {formData : Value} (h : form.ItemsWrite binding index array values' next formData)
    (items' : List ArrayItemState) (d s : Bool) :
    form.ItemsReplaced ((form.writeItems index items' next formData).advance d s) binding
      array.identities (items'.map (·.identity)) := by
  have hindex : form.itemTable.findIdx? (·.1 == binding) = some index := by
    rw [itemTable, List.findIdx?_map]
    exact h.index_eq
  have htable : ((form.writeItems index items' next formData).advance d s).itemTable =
      form.itemTable.modify index fun entry => (entry.1, items'.map (·.identity)) := by
    refine map_modify_comm ?_ index form.arrays
    intro _; rfl
  refine ⟨?_, ?_, fun other ho => ?_⟩
  · rw [arrayItemIdentities, h.array_eq]
    rfl
  · rw [arrayItemIdentities_eq, htable, find?_modify_key hindex, if_pos rfl]
    rfl
  · rw [arrayItemIdentities_eq, arrayItemIdentities_eq, htable, find?_modify_key hindex, if_neg ho]

/-! ## Array operations -/

theorem findIdx?_identities (items : List ArrayItemState) (identity : Nat) :
    (items.map (·.identity)).findIdx? (· == identity) =
      items.findIdx? (·.identity == identity) := by
  rw [List.findIdx?_map]
  rfl

theorem identitiesFrom_eq (items : List ArrayItemState) (position : Nat) :
    identitiesFrom items position = (items.map (·.identity)).drop position := by
  rw [identitiesFrom, List.map_drop]

theorem appendArrayItem_items {item : Nat}
    (h : form.appendArrayItem binding = (form', .ok item)) : item = form.nextItemIdentity ∧
      ∃ before, form.ItemsReplaced form' binding before (before ++ [item]) := by
  rcases appendArrayItem_cases h with ⟨_, _, hr⟩ | ⟨_, array, _, _, hr, _, hw, rfl⟩
  · cases hr
  · cases hr
    refine ⟨rfl, array.identities, ?_⟩
    have hreplaced := hw.replaced
      (array.items ++ [ArrayItemState.new form.nextItemIdentity array.definition]) true true
    rwa [List.map_append] at hreplaced

theorem insertArrayItemBefore_items {target : Nat} {inserted : InsertedArrayItem}
    (h : form.insertArrayItemBefore binding target = (form', .ok inserted)) :
    inserted.identity = form.nextItemIdentity ∧ ∃ before position,
      before.findIdx? (· == target) = some position ∧
      inserted.shifted = before.drop position ∧
      form.ItemsReplaced form' binding before (before.insertIdx position inserted.identity) := by
  rcases insertArrayItemBefore_cases h with
    ⟨_, _, hr⟩ | ⟨_, array, position, _, _, hp, hr, _, hw, rfl⟩
  · cases hr
  · cases hr
    refine ⟨rfl, array.identities, position, (findIdx?_identities _ _).trans hp,
      identitiesFrom_eq _ _, ?_⟩
    have hreplaced := hw.replaced (array.items.insertIdx position
      (ArrayItemState.new form.nextItemIdentity array.definition)) true true
    rwa [List.map_insertIdx] at hreplaced

theorem removeArrayItem_items {identity : Nat} {removed : RemovedArrayItem}
    (h : form.removeArrayItem binding identity = (form', .ok removed)) : ∃ before position,
      before.findIdx? (· == identity) = some position ∧
      removed.shifted = before.drop (position + 1) ∧
      form.ItemsReplaced form' binding before (before.eraseIdx position) := by
  rcases removeArrayItem_cases h with ⟨_, _, hr⟩ | ⟨_, array, position, _, _, hp, hr, _, hw, rfl⟩
  · cases hr
  · cases hr
    refine ⟨array.identities, position, (findIdx?_identities _ _).trans hp,
      identitiesFrom_eq _ _, ?_⟩
    have hreplaced := hw.replaced (array.items.eraseIdx position) true true
    rwa [← List.eraseIdx_map] at hreplaced

theorem moveArrayItem_items {direction : ArrayMove} {identity : Nat} {moved : MovedArrayItem}
    (h : moveArrayItem direction form binding identity = (form', .ok moved)) : ∃ before,
      before.findIdx? (· == identity) = some moved.source ∧
      before[moved.destination]? = some moved.displaced ∧
      form.ItemsReplaced form' binding before (swap before moved.source moved.destination) := by
  rcases moveArrayItem_cases h with ⟨_, _, hr⟩ |
    ⟨_, array, source, destination, _, _, displaced, dataChanged, hs, _, hd, _, hr, _, hw, rfl⟩
  · cases hr
  · cases hr
    refine ⟨array.identities, (findIdx?_identities _ _).trans hs, ?_, ?_⟩
    · rw [ArrayState.identities, List.getElem?_map]
      exact hd
    · have hreplaced := hw.replaced (swap array.items source destination) dataChanged true
      rwa [ListEdit.map_swap] at hreplaced

/-- An include inserts one item; an exclude drops the items of all equal members. -/
theorem toggleArrayChoice_items {value : Value} {toggled : ToggledArrayChoice}
    (h : form.toggleArrayChoice binding value = (form', .ok toggled)) :
    (∃ before position, toggled =
        .included ⟨form.nextItemIdentity, before.drop position⟩ ∧
      form.ItemsReplaced form' binding before
        (before.insertIdx position form.nextItemIdentity)) ∨
    ∃ before values option first rest, carrying values option = first :: rest ∧
      toggled = .excluded ((carrying values option).filterMap (before[·]?))
        ((eraseIndices before (carrying values option)).drop first) ∧
      form.ItemsReplaced form' binding before (eraseIndices before (carrying values option)) := by
  rcases toggleArrayChoice_cases h with ⟨_, _, hr⟩ | ⟨_, array, option, values, _, _, _, _, _,
    ⟨position, _, hr, hw, rfl⟩ | ⟨first, rest, hfr, hr, hw, rfl⟩⟩
  · cases hr
  · cases hr
    refine .inl ⟨array.identities, position, ?_, ?_⟩
    · rw [identitiesFrom_eq]
      rfl
    · have hreplaced := hw.replaced (array.items.insertIdx position
        (ArrayItemState.new form.nextItemIdentity array.definition)) true true
      rwa [List.map_insertIdx] at hreplaced
  · cases hr
    refine .inr ⟨array.identities, values, option, first, rest, hfr, ?_, ?_⟩
    · rw [identitiesFrom_eq, ListEdit.map_eraseIndices]
      simp only [ArrayState.identities, List.getElem?_map]
    · have hreplaced := hw.replaced (eraseIndices array.items (carrying values option)) true true
      rwa [ListEdit.map_eraseIndices] at hreplaced

/-! ## The edit itself -/

/-- One array's values edited in the form data, and its item states. -/
structure ItemsStep (form form' : Form) (binding : Pointer) (index : Nat) (array : ArrayState)
    (editValues : List Value → List Value) (items' : List ArrayItemState) : Prop where
  index_eq : form.arrayIndex binding = some index
  array_eq : form.array binding = some array
  data : array.definition.binding.modify (editItems editValues) form.formData = some form'.formData
  arrays : form'.arrays = form.arrays.modify index fun array => { array with items := items' }
  next_le : form.nextItemIdentity ≤ form'.nextItemIdentity

/-- The item that stands for a seeded value. -/
def newItem (form : Form) (array : ArrayState) : ArrayItemState :=
  ArrayItemState.new form.nextItemIdentity array.definition

theorem appendArrayItem_step {item : Nat} (h : form.appendArrayItem binding = (form', .ok item)) :
    ∃ index array, form.ItemsStep form' binding index array
      (fun values => values ++ [array.definition.itemTemplate.creationSeed])
      (array.items ++ [form.newItem array]) := by
  simp only [appendArrayItem] at h
  split at h
  · cases h
  split at h
  · rename_i index array hi ha
    split at h
    · cases h
    · rename_i formData hm
      cases h
      exact ⟨index, array, hi, ha, hm, rfl, Nat.le_succ _⟩
  · cases h

theorem insertArrayItemBefore_step {before : Nat} {inserted : InsertedArrayItem}
    (h : form.insertArrayItemBefore binding before = (form', .ok inserted)) :
    ∃ index array position, array.items.findIdx? (·.identity == before) = some position ∧
      form.ItemsStep form' binding index array
        (fun values => values.insertIdx position array.definition.itemTemplate.creationSeed)
        (array.items.insertIdx position (form.newItem array)) := by
  simp only [insertArrayItemBefore] at h
  split at h
  · cases h
  split at h
  · rename_i index array hi ha
    split at h
    · cases h
    · rename_i position hp
      split at h
      · cases h
      · rename_i inserted' hins
        cases h
        obtain ⟨formData, hm, he⟩ := Option.bind_eq_some_iff.mp hins
        cases he
        exact ⟨index, array, position, hp, hi, ha, hm, rfl, Nat.le_succ _⟩
  · cases h

theorem removeArrayItem_step {identity : Nat} {removed : RemovedArrayItem}
    (h : form.removeArrayItem binding identity = (form', .ok removed)) :
    ∃ index array position, array.items.findIdx? (·.identity == identity) = some position ∧
      form.ItemsStep form' binding index array (fun values => values.eraseIdx position)
        (array.items.eraseIdx position) := by
  simp only [removeArrayItem] at h
  split at h
  · cases h
  split at h
  · rename_i index array hi ha
    split at h
    · cases h
    · rename_i position hp
      split at h
      · cases h
      · rename_i formData hm
        cases h
        exact ⟨index, array, position, hp, hi, ha, hm, rfl, Nat.le_refl _⟩
  · cases h

theorem moveArrayItem_step {direction : ArrayMove} {identity : Nat} {moved : MovedArrayItem}
    (h : moveArrayItem direction form binding identity = (form', .ok moved)) :
    ∃ index array source destination,
      array.items.findIdx? (·.identity == identity) = some source ∧
      moveDestination direction source array.items.length = some destination ∧
      form.ItemsStep form' binding index array (fun values => swap values source destination)
        (swap array.items source destination) := by
  simp only [moveArrayItem] at h
  split at h
  · rename_i index array hi ha
    split at h
    · cases h
    · rename_i source hs
      split at h
      · cases h
      · rename_i destination hd
        split at h
        · rename_i values formData _ hm
          cases h
          exact ⟨index, array, source, destination, hs, hd, hi, ha, hm, rfl, Nat.le_refl _⟩
        · cases h
  · cases h

end Form

end Schemaform.Engine
