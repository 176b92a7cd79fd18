import Schemaform.Compile.AutoSpec

/-!
# Compile.PropertySets

The properties an `Auto` shows, selected set by set as the compiler does it.

* `AutoSelection.selectAutoProperties`: the sets, the placing and the indexing.
* `includeProperties_eq`, `excludeProperties_eq`, `selected_eq`: what the sets come to.
* `placeProperties_eq`, `selectAutoProperties_eq`: no property is indexed that is not there, and
  what is selected is the selection of the compiled definition.
-/

namespace Schemaform

open Ui

namespace AutoSelection

/-! ## The selection -/

/-- A `BTreeSet<String>`: its names in order. -/
abbrev PropertySet := List (String × Unit)

def includeProperties (directProperties : List (String × Nat)) (valueLocation : String) :
    Nat → List String → PropertySet → Except UiSchemaInputError PropertySet
  | _, [], selected => .ok selected
  | index, property :: properties, selected =>
    if (SortedMap.get property directProperties).isNone then
      .error ⟨s!"{valueLocation}/properties/include/{index}", .unknownBinding⟩
    else
      includeProperties directProperties valueLocation (index + 1) properties
        (SortedMap.insert property () selected)

def excludeProperties (directProperties : List (String × Nat)) (valueLocation : String) :
    Nat → List String → PropertySet → Except UiSchemaInputError PropertySet
  | _, [], selected => .ok selected
  | index, property :: properties, selected =>
    if (SortedMap.get property directProperties).isNone then
      .error ⟨s!"{valueLocation}/properties/exclude/{index}", .unknownBinding⟩
    else
      excludeProperties directProperties valueLocation (index + 1) properties
        (SortedMap.erase property selected)

/-- All properties, or the included ones. -/
def startProperties (selection : PropertySelection) (directProperties : List (String × Nat))
    (valueLocation : String) : Except UiSchemaInputError PropertySet :=
  if selection.includeValue.isEmpty then .ok (directProperties.map fun property => (property.1, ()))
  else includeProperties directProperties valueLocation 0 selection.includeValue []

/-- The loop over the order. `none` is the panic of indexing with a property that is not there. -/
def placeProperties (directProperties : List (String × Nat)) (selected : PropertySet)
    (remaining : List Nat) : List PropertyPosition → List Nat → Option (List Nat)
  | [], ordered => some ordered
  | .property property :: order, ordered =>
    if (SortedMap.get property selected).isSome then
      (SortedMap.get property directProperties).bind fun index =>
        placeProperties directProperties selected remaining order (ordered ++ [index])
    else placeProperties directProperties selected remaining order ordered
  | .remaining :: order, ordered =>
    placeProperties directProperties selected remaining order (ordered ++ remaining)

def selectAutoProperties (selection : PropertySelection) (directProperties : List (String × Nat))
    (valueLocation : String) (explicitlyOrdered : List String) (remainingSeen : Bool) :
    Except UiSchemaInputError (Option (List Nat)) := do
  let selected ← startProperties selection directProperties valueLocation
  let selected ← excludeProperties directProperties valueLocation 0 selection.excludeValue selected
  checkOrder directProperties valueLocation 0 selection.orderValue
  pure do
    let remaining ← (selected.filter fun property => property.1 ∉ explicitlyOrdered).mapM
      fun property => SortedMap.get property.1 directProperties
    let ordered ← placeProperties directProperties selected remaining selection.orderValue []
    if remainingSeen then some ordered else some (ordered ++ remaining)

/-- Both calls, on the direct properties of an object. -/
def autoProperties (generated : List GeneratedNode) (context : AuthoredBindingContext)
    (binding : Pointer) (selection : PropertySelection) (valueLocation : String) :
    Except UiSchemaInputError (Option (List Nat)) := do
  let order ← validateAutoPropertyOrder valueLocation 0 selection.orderValue [] false
  selectAutoProperties selection (directGeneratedProperties generated context binding)
    valueLocation order.1 order.2

/-! ## Sets -/

section Sets

variable {directProperties : List (String × Nat)} {valueLocation : String}

theorem includeProperties_eq (properties : List String) (index : Nat) (selected : PropertySet) :
    includeProperties directProperties valueLocation index properties selected =
      (checkProperties directProperties
        (fun index => s!"{valueLocation}/properties/include/{index}") index properties).map
        fun _ => properties.foldl (fun set property => SortedMap.insert property () set)
          selected := by
  induction properties generalizing index selected with
  | nil => rfl
  | cons property properties ih =>
    rw [includeProperties, checkProperties, ih]
    split <;> rfl

theorem excludeProperties_eq (properties : List String) (index : Nat) (selected : PropertySet) :
    excludeProperties directProperties valueLocation index properties selected =
      (checkProperties directProperties
        (fun index => s!"{valueLocation}/properties/exclude/{index}") index properties).map
        fun _ => properties.foldl (fun set property => SortedMap.erase property set) selected := by
  induction properties generalizing index selected with
  | nil => rfl
  | cons property properties ih =>
    rw [excludeProperties, checkProperties, ih]
    split <;> rfl

theorem checkProperties_iff {location : Nat → String} (properties : List String) (index : Nat) :
    checkProperties directProperties location index properties = .ok () ↔
      ∀ property ∈ properties, (SortedMap.get property directProperties).isSome = true := by
  induction properties generalizing index with
  | nil => simp [checkProperties]
  | cons property properties ih =>
    rw [checkProperties, List.forall_mem_cons]
    cases hget : SortedMap.get property directProperties with
    | none => simp
    | some i => simpa using ih (index + 1)

theorem checkOrder_iff (order : List PropertyPosition) (index : Nat) :
    checkOrder directProperties valueLocation index order = .ok () ↔
      ∀ property, .property property ∈ order →
        (SortedMap.get property directProperties).isSome = true := by
  induction order generalizing index with
  | nil => simp [checkOrder]
  | cons position order ih =>
    cases position with
    | property property =>
      rw [checkOrder]
      cases hget : SortedMap.get property directProperties with
      | none =>
        simp only [Option.isNone_none, if_true, reduceCtorEq, false_iff, not_forall]
        exact ⟨property, List.mem_cons_self, by simp [hget]⟩
      | some i =>
        simp only [Option.isNone_some, Bool.false_eq_true, if_false, ih, List.mem_cons]
        constructor
        · rintro h other (heq | hother)
          · cases heq
            rw [hget]
            rfl
          · exact h other hother
        · exact fun h other hother => h other (.inr hother)
    | remaining =>
      rw [checkOrder, ih]
      simp

theorem sorted_insertAll (properties : List String) {set : PropertySet}
    (hsorted : SortedMap.Sorted set) : SortedMap.Sorted
      (properties.foldl (fun set property => SortedMap.insert property () set) set) := by
  induction properties generalizing set with
  | nil => exact hsorted
  | cons property properties ih => exact ih (hsorted.insert property ())

theorem get_insertAll (name : String) (properties : List String) (set : PropertySet) :
    SortedMap.get name
        (properties.foldl (fun set property => SortedMap.insert property () set) set) =
      if name ∈ properties then some () else SortedMap.get name set := by
  induction properties generalizing set with
  | nil => rfl
  | cons property properties ih =>
    rw [List.foldl_cons, ih]
    by_cases hrest : name ∈ properties
    · rw [if_pos hrest, if_pos (List.mem_cons_of_mem _ hrest)]
    · rw [if_neg hrest]
      by_cases hname : property = name
      · rw [hname, SortedMap.get_insert_self, if_pos List.mem_cons_self]
      · rw [SortedMap.get_insert_ne hname, if_neg (by simp [hrest, Ne.symm hname])]

theorem sorted_eraseAll (properties : List String) {set : PropertySet}
    (hsorted : SortedMap.Sorted set) : SortedMap.Sorted
      (properties.foldl (fun set property => SortedMap.erase property set) set) := by
  induction properties generalizing set with
  | nil => exact hsorted
  | cons property properties ih => exact ih (hsorted.erase property)

theorem get_eraseAll (name : String) (properties : List String) {set : PropertySet}
    (hsorted : SortedMap.Sorted set) :
    SortedMap.get name (properties.foldl (fun set property => SortedMap.erase property set) set) =
      if name ∈ properties then none else SortedMap.get name set := by
  induction properties generalizing set with
  | nil => rfl
  | cons property properties ih =>
    rw [List.foldl_cons, ih (hsorted.erase property)]
    by_cases hrest : name ∈ properties
    · rw [if_pos hrest, if_pos (List.mem_cons_of_mem _ hrest)]
    · rw [if_neg hrest]
      by_cases hname : property = name
      · rw [hname, SortedMap.get_erase_self hsorted, if_pos List.mem_cons_self]
      · rw [SortedMap.get_erase_ne hname, if_neg (by simp [hrest, Ne.symm hname])]

end Sets

/-! ## What the sets come to -/

/-- Included, or nothing is included by name, and not excluded. -/
def selects (selection : PropertySelection) (name : String) : Bool :=
  (selection.includeValue.isEmpty || selection.includeValue.contains name) &&
    !selection.excludeValue.contains name

section Selected

variable {selection : PropertySelection} {directProperties : List (String × Nat)}

theorem get_map_unit (name : String) (l : List (String × Nat)) :
    SortedMap.get name (l.map fun property => (property.1, ())) =
      (SortedMap.get name l).map fun _ => () := by
  induction l with
  | nil => rfl
  | cons e l ih =>
    rw [List.map_cons, SortedMap.get_cons, SortedMap.get_cons, ih]
    split <;> rfl

theorem get_filter_key (test : String → Bool) (name : String) (l : List (String × Nat)) :
    SortedMap.get name (l.filter fun property => test property.1) =
      if test name then SortedMap.get name l else none := by
  induction l with
  | nil => simp
  | cons e l ih =>
    rw [List.filter_cons, SortedMap.get_cons]
    by_cases hname : e.1 = name
    · rw [if_pos hname, hname]
      by_cases htest : test name
      · rw [if_pos htest, SortedMap.get_cons, if_pos hname, if_pos htest]
      · rw [if_neg htest, ih, if_neg htest, if_neg htest]
    · rw [if_neg hname]
      by_cases htest : test e.1
      · rw [if_pos htest, SortedMap.get_cons, if_neg hname, ih]
      · rw [if_neg htest, ih]

/-- The set the compiler ends with holds the selected properties. -/
theorem selected_eq (hsorted : SortedMap.Sorted directProperties)
    (hinclude : ∀ property ∈ selection.includeValue,
      (SortedMap.get property directProperties).isSome = true) :
    selection.excludeValue.foldl (fun set property => SortedMap.erase property set)
        (if selection.includeValue.isEmpty then
          directProperties.map fun property => (property.1, ())
        else selection.includeValue.foldl
          (fun set property => SortedMap.insert property () set) []) =
      (selectedProperties selection directProperties).map fun property => (property.1, ()) := by
  have hmap {l : List (String × Nat)} (hl : SortedMap.Sorted l) :
      SortedMap.Sorted (l.map fun property => (property.1, ())) := List.pairwise_map.mpr hl
  generalize hstart : (if selection.includeValue.isEmpty then _ else _) = start
  have hstarts : SortedMap.Sorted start ∧ ∀ name, SortedMap.get name start =
      if selection.includeValue.isEmpty || selection.includeValue.contains name then
        (SortedMap.get name directProperties).map fun _ => () else none := by
    rw [← hstart]
    by_cases hempty : selection.includeValue.isEmpty = true
    · rw [if_pos hempty]
      exact ⟨hmap hsorted, fun name => by rw [hempty, Bool.true_or, if_pos rfl, get_map_unit]⟩
    · rw [if_neg hempty]
      refine ⟨sorted_insertAll _ .nil, fun name => ?_⟩
      rw [get_insertAll, SortedMap.get_nil]
      by_cases hname : name ∈ selection.includeValue
      · obtain ⟨i, hi⟩ := Option.isSome_iff_exists.mp (hinclude name hname)
        rw [if_pos hname, if_pos (Bool.or_eq_true_iff.mpr (.inr (List.contains_iff_mem.mpr hname))),
          hi]
        rfl
      · rw [if_neg hname, if_neg]
        rw [Bool.or_eq_true, List.contains_iff_mem]
        exact not_or.mpr ⟨hempty, hname⟩
  have hselected : selectedProperties selection directProperties =
      directProperties.filter fun property => selects selection property.1 := rfl
  refine SortedMap.ext_get (sorted_eraseAll _ hstarts.1) (hmap (hsorted.filter _)) fun name => ?_
  rw [get_eraseAll name _ hstarts.1, hstarts.2, get_map_unit, hselected, get_filter_key, selects]
  generalize (selection.includeValue.isEmpty || selection.includeValue.contains name) = included
  by_cases hname : name ∈ selection.excludeValue
  · simp [hname]
  · cases included <;> simp [hname]

theorem get_selected (name : String) :
    SortedMap.get name (selectedProperties selection directProperties) =
      if selects selection name then SortedMap.get name directProperties else none :=
  get_filter_key (selects selection) name directProperties

theorem orderedProperties_property (selected : List (String × Nat)) (property : String)
    (order : List PropertyPosition) (explicitlyOrdered : List String) :
    orderedProperties selected (.property property :: order) explicitlyOrdered true =
      (SortedMap.get property selected).toList ++
        orderedProperties selected order explicitlyOrdered true := by
  simp only [orderedProperties, if_true, List.flatMap_cons]

theorem orderedProperties_remaining (selected : List (String × Nat))
    (order : List PropertyPosition) (explicitlyOrdered : List String) :
    orderedProperties selected (.remaining :: order) explicitlyOrdered true =
      (selected.filter fun property => property.1 ∉ explicitlyOrdered).map (·.2) ++
        orderedProperties selected order explicitlyOrdered true := by
  simp only [orderedProperties, if_true, List.flatMap_cons]

theorem orderedProperties_last (selected : List (String × Nat)) (order : List PropertyPosition)
    (explicitlyOrdered : List String) :
    orderedProperties selected order explicitlyOrdered false =
      orderedProperties selected order explicitlyOrdered true ++
        (selected.filter fun property => property.1 ∉ explicitlyOrdered).map (·.2) := by
  simp only [orderedProperties, if_true, Bool.false_eq_true, if_false]

theorem placeProperties_eq (explicitlyOrdered : List String) (order : List PropertyPosition)
    (ordered : List Nat) :
    placeProperties directProperties
        ((selectedProperties selection directProperties).map fun property => (property.1, ()))
        (((selectedProperties selection directProperties).filter
          fun property => property.1 ∉ explicitlyOrdered).map (·.2)) order ordered =
      some (ordered ++ orderedProperties (selectedProperties selection directProperties) order
        explicitlyOrdered true) := by
  induction order generalizing ordered with
  | nil =>
    rw [placeProperties]
    exact congrArg some (List.append_nil ordered).symm
  | cons position order ih =>
    cases position with
    | property property =>
      rw [placeProperties, orderedProperties_property, get_map_unit, Option.isSome_map,
        get_selected]
      by_cases hselects : selects selection property = true
      · rw [if_pos hselects]
        cases hget : SortedMap.get property directProperties with
        | none => exact ih ordered
        | some i =>
          rw [Option.isSome_some, if_pos rfl, Option.bind_some, ih, List.append_assoc]
          rfl
      · rw [if_neg hselects]
        exact ih ordered
    | remaining =>
      rw [placeProperties, orderedProperties_remaining, ih, List.append_assoc]

theorem mapM_get (hsorted : SortedMap.Sorted directProperties) {l : List (String × Nat)}
    (hl : ∀ property ∈ l, property ∈ directProperties) :
    (l.map fun property => (property.1, ())).mapM
      (fun property => SortedMap.get property.1 directProperties) = some (l.map (·.2)) := by
  induction l with
  | nil => rfl
  | cons e l ih =>
    obtain ⟨he, hl⟩ := List.forall_mem_cons.mp hl
    rw [List.map_cons, List.mapM_cons, SortedMap.get_of_mem hsorted he, ih hl]
    rfl

theorem selectAutoProperties_eq (hsorted : SortedMap.Sorted directProperties)
    (valueLocation : String) (explicitlyOrdered : List String) (remainingSeen : Bool) :
    selectAutoProperties selection directProperties valueLocation explicitlyOrdered
        remainingSeen =
      (Schemaform.selectAutoProperties selection directProperties valueLocation explicitlyOrdered
        remainingSeen).map some := by
  have hstart : startProperties selection directProperties valueLocation =
      (checkProperties directProperties
        (fun index => s!"{valueLocation}/properties/include/{index}") 0
        selection.includeValue).map fun _ =>
          if selection.includeValue.isEmpty then
            directProperties.map fun property => (property.1, ())
          else selection.includeValue.foldl
            (fun set property => SortedMap.insert property () set) [] := by
    rw [startProperties, includeProperties_eq]
    by_cases hempty : selection.includeValue.isEmpty = true
    · rw [if_pos hempty, if_pos hempty, List.isEmpty_iff.mp hempty]
      rfl
    · rw [if_neg hempty, if_neg hempty]
  unfold selectAutoProperties Schemaform.selectAutoProperties
  rw [hstart]
  cases hinclude : checkProperties directProperties
    (fun index => s!"{valueLocation}/properties/include/{index}") 0 selection.includeValue with
  | error error => rfl
  | ok _ =>
    have hdirect := (checkProperties_iff _ _).mp hinclude
    simp only [Except.map, bind, Except.bind, excludeProperties_eq]
    cases checkProperties directProperties
      (fun index => s!"{valueLocation}/properties/exclude/{index}") 0 selection.excludeValue with
    | error error => rfl
    | ok _ =>
      cases checkOrder directProperties valueLocation 0 selection.orderValue with
      | error error => rfl
      | ok _ =>
        have hremaining := mapM_get hsorted
          (l := (selectedProperties selection directProperties).filter
            fun property => property.1 ∉ explicitlyOrdered)
          fun property hp => List.mem_of_mem_filter (List.mem_of_mem_filter hp)
        simp only [selected_eq hsorted hdirect, List.filter_map, Function.comp_def, hremaining,
          Option.bind_some, placeProperties_eq, List.nil_append]
        cases remainingSeen with
        | true => rfl
        | false =>
          rw [orderedProperties_last]
          rfl

end Selected

end AutoSelection

end Schemaform
