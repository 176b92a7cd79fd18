import Schemaform.Compile.DefinitionTree
import Schemaform.Compile.PropertySets

/-!
# Compile.Selection

An `Auto` loses and repeats none of the properties it selects.

* `directGeneratedProperties_iff`: every direct property is there under its name.
* `AutoSelected`: what is selected and in which order; `Valid`: what the calls check.
* `autoProperties_iff`, `autoSelected_ordered`, `auto_selection_exact`.
-/

namespace Schemaform

open Ui

namespace AutoSelection

/-! ## Direct properties -/

section Direct

variable {generated : List GeneratedNode} {context : AuthoredBindingContext} {binding : Pointer}

theorem propertyNameAt_eq {i : Nat} {g : GeneratedNode} (hg : generated[i]? = some g) :
    propertyNameAt generated i = g.propertyName := by
  rw [propertyNameAt, hg]
  rfl

/-- The binding of a direct property is that of the object with its name. -/
theorem direct_binding (hf : GeneratedForest generated) {g : GeneratedNode} (hg : g ∈ generated)
    (hdirect : isDirect context binding g = true) :
    g.owningArrayBinding = context.owningArrayBinding ∧
      g.binding = binding ++ [g.propertyName] := by
  simp only [isDirect, Bool.and_eq_true, beq_iff_eq, bne_iff_ne] at hdirect
  obtain ⟨⟨howner, hne⟩, hparent⟩ := hdirect
  refine ⟨howner, ?_⟩
  have hname {parent : Pointer} {name : String} (h : g.binding = parent ++ [name]) :
      g.propertyName = name := by
    rw [GeneratedNode.propertyName, h, List.getLast?_concat]
    rfl
  split at hparent
  · rename_i hroot
    obtain rfl := List.isEmpty_iff.mp hroot.1
    rcases hf.last g hg with ⟨hempty, _⟩ | ⟨name, hbinding⟩
    · exact absurd hempty hne
    · rw [Option.isNone_iff_eq_none.mp hparent] at hbinding
      rw [hname hbinding]
      exact hbinding
  · rw [beq_iff_eq] at hparent
    rcases hf.last g hg with ⟨_, hnone⟩ | ⟨name, hbinding⟩
    · cases hparent.symm.trans hnone
    · rw [hparent] at hbinding
      rw [hname hbinding]
      exact hbinding

/-- No direct property is lost to another of its name. -/
theorem directGeneratedProperties_iff (hf : GeneratedForest generated) {name : String} {i : Nat} :
    (name, i) ∈ directGeneratedProperties generated context binding ↔
      ∃ g, generated[i]? = some g ∧ isDirect context binding g = true ∧ g.propertyName = name := by
  have hnodup : (((indicesWhere generated (isDirect context binding)).map
      fun index => (propertyNameAt generated index, index)).map Prod.fst).Nodup := by
    rw [List.map_map]
    refine List.Nodup.map_on ?_ (indicesWhere_nodup _ _)
    intro j hj k hk hname
    obtain ⟨g, hg, hdirect⟩ := mem_indicesWhere.mp hj
    obtain ⟨h, hh, hdirect'⟩ := mem_indicesWhere.mp hk
    obtain ⟨howner, hbinding⟩ := direct_binding hf (List.mem_of_getElem? hg) hdirect
    obtain ⟨howner', hbinding'⟩ := direct_binding hf (List.mem_of_getElem? hh) hdirect'
    have hname : propertyNameAt generated j = propertyNameAt generated k := hname
    rw [propertyNameAt_eq hg, propertyNameAt_eq hh] at hname
    exact place_inj hf hg hh (howner.trans howner'.symm)
      (hbinding.trans (hname ▸ hbinding'.symm))
  rw [directGeneratedProperties_eq, (SortedMap.ofEntries_perm hnodup).mem_iff, List.mem_map]
  constructor
  · rintro ⟨index, hindex, heq⟩
    obtain ⟨rfl, rfl⟩ := Prod.mk.inj heq
    obtain ⟨g, hg, hdirect⟩ := mem_indicesWhere.mp hindex
    exact ⟨g, hg, hdirect, (propertyNameAt_eq hg).symm⟩
  · rintro ⟨g, hg, hdirect, rfl⟩
    exact ⟨i, mem_indicesWhere.mpr ⟨g, hg, hdirect⟩, by rw [propertyNameAt_eq hg]⟩

theorem directGeneratedProperties_sorted :
    SortedMap.Sorted (directGeneratedProperties generated context binding) := by
  rw [directGeneratedProperties_eq]
  exact SortedMap.sorted_ofEntries _

end Direct

/-! ## What is selected -/

def positionName : PropertyPosition → Option String
  | .property property => some property
  | .remaining => none

/-- The properties an order names, in its order. -/
def namedIn (order : List PropertyPosition) : List String := order.filterMap positionName

/-- What an `Auto` shows: the direct properties it selects, each once. Those that the order names
stand where it names them, the remaining ones by name at its marker or at the end. -/
structure AutoSelected (generated : List GeneratedNode) (context : AuthoredBindingContext)
    (binding : Pointer) (selection : PropertySelection) (selected : List Nat) : Prop where
  nodup : selected.Nodup
  mem : ∀ i, i ∈ selected ↔ ∃ g, generated[i]? = some g ∧ isDirect context binding g = true ∧
    selects selection g.propertyName = true
  layout : ∃ before remaining after, selected = before ++ remaining ++ after ∧
    ((∃ first last, selection.orderValue = first ++ .remaining :: last ∧
        before.map (propertyNameAt generated) = (namedIn first).filter (selects selection) ∧
        after.map (propertyNameAt generated) = (namedIn last).filter (selects selection)) ∨
      (.remaining ∉ selection.orderValue ∧ after = [] ∧
        before.map (propertyNameAt generated) =
          (namedIn selection.orderValue).filter (selects selection))) ∧
    (remaining.map (propertyNameAt generated)).Pairwise (· < ·) ∧
    ∀ i ∈ remaining, .property (propertyNameAt generated i) ∉ selection.orderValue

/-- What both calls check: nothing is ordered twice, and every property that is named is there. -/
structure Valid (generated : List GeneratedNode) (context : AuthoredBindingContext)
    (binding : Pointer) (selection : PropertySelection) : Prop where
  nodup : selection.orderValue.Nodup
  named : ∀ name, name ∈ selection.includeValue ∨ name ∈ selection.excludeValue ∨
    .property name ∈ selection.orderValue →
      ∃ g ∈ generated, isDirect context binding g = true ∧ g.propertyName = name

section Exact

variable {generated : List GeneratedNode} {context : AuthoredBindingContext} {binding : Pointer}
  {selection : PropertySelection}

theorem validateAutoPropertyOrder_total {valueLocation : String} {order : List PropertyPosition} :
    ∀ (index : Nat) (named : List String) (seen : Bool), order.Nodup →
      (∀ property, .property property ∈ order → property ∉ named) →
      (seen = true → .remaining ∉ order) →
      ∃ result, validateAutoPropertyOrder valueLocation index order named seen = .ok result := by
  induction order with
  | nil => exact fun _ named seen _ _ _ => ⟨(named, seen), rfl⟩
  | cons position order ih =>
    intro index named seen hnodup hapart hremaining
    obtain ⟨hfresh, hrest⟩ := List.nodup_cons.mp hnodup
    cases position with
    | property property =>
      rw [validateAutoPropertyOrder, if_neg (hapart property List.mem_cons_self)]
      refine ih _ _ _ hrest ?_ fun hs hmem => hremaining hs (List.mem_cons_of_mem _ hmem)
      intro other hother hmem
      rcases List.mem_cons.mp hmem with rfl | hmem
      · exact hfresh hother
      · exact hapart other (List.mem_cons_of_mem _ hother) hmem
    | remaining =>
      rw [validateAutoPropertyOrder, if_neg fun hs => hremaining hs List.mem_cons_self]
      exact ih _ _ _ hrest
        (fun other hother => hapart other (List.mem_cons_of_mem _ hother)) fun _ => hfresh

theorem isSome_direct_iff (hf : GeneratedForest generated) {name : String} :
    (SortedMap.get name (directGeneratedProperties generated context binding)).isSome = true ↔
      ∃ g ∈ generated, isDirect context binding g = true ∧ g.propertyName = name := by
  constructor
  · intro h
    obtain ⟨i, hi⟩ := Option.isSome_iff_exists.mp h
    obtain ⟨g, hg, hdirect⟩ := (directGeneratedProperties_iff hf).mp (SortedMap.mem_of_get hi)
    exact ⟨g, List.mem_of_getElem? hg, hdirect⟩
  · rintro ⟨g, hg, hdirect⟩
    obtain ⟨i, hi⟩ := List.mem_iff_getElem?.mp hg
    have hmem := (directGeneratedProperties_iff hf).mpr ⟨g, hi, hdirect⟩
    rw [SortedMap.get_of_mem directGeneratedProperties_sorted hmem]
    rfl

/-- The calls succeed with what the model selects, or fail, as the selection is valid or not. -/
theorem autoProperties_iff (hf : GeneratedForest generated) {valueLocation : String}
    {result : Option (List Nat)} :
    autoProperties generated context binding selection valueLocation = .ok result ↔
      Valid generated context binding selection ∧ ∃ named seen,
        validateAutoPropertyOrder valueLocation 0 selection.orderValue [] false =
          .ok (named, seen) ∧
        result = some (orderedProperties
          (selectedProperties selection (directGeneratedProperties generated context binding))
          selection.orderValue named seen) := by
  unfold autoProperties
  rw [bind_eq_ok]
  simp only [selectAutoProperties_eq directGeneratedProperties_sorted]
  constructor
  · rintro ⟨⟨named, seen⟩, horder, h⟩
    unfold Schemaform.selectAutoProperties at h
    obtain ⟨selected, hselect, rfl⟩ := map_eq_ok.mp h
    obtain ⟨_, hinclude, h⟩ := bind_eq_ok.mp hselect
    obtain ⟨_, hexclude, h⟩ := bind_eq_ok.mp h
    obtain ⟨_, hchecked, h⟩ := bind_eq_ok.mp h
    obtain rfl := Except.ok.inj h
    refine ⟨⟨(validateAutoPropertyOrder_ok horder).1, fun name hname => ?_⟩, named, seen, horder,
      rfl⟩
    rw [← isSome_direct_iff hf]
    rcases hname with hname | hname | hname
    · exact (checkProperties_iff _ _).mp hinclude name hname
    · exact (checkProperties_iff _ _).mp hexclude name hname
    · exact (checkOrder_iff _ _).mp hchecked name hname
  · rintro ⟨hvalid, named, seen, horder, rfl⟩
    have hsome {name : String} (h : name ∈ selection.includeValue ∨
        name ∈ selection.excludeValue ∨ .property name ∈ selection.orderValue) :=
      (isSome_direct_iff hf).mpr (hvalid.named name h)
    refine ⟨(named, seen), horder, ?_⟩
    unfold Schemaform.selectAutoProperties
    rw [(checkProperties_iff _ _).mpr fun name hname => hsome (.inl hname),
      (checkProperties_iff _ _).mpr fun name hname => hsome (.inr (.inl hname)),
      (checkOrder_iff _ _).mpr fun name hname => hsome (.inr (.inr hname))]
    rfl

theorem orderedProperties_append (selected : List (String × Nat))
    (first last : List PropertyPosition) (explicitlyOrdered : List String) :
    orderedProperties selected (first ++ last) explicitlyOrdered true =
      orderedProperties selected first explicitlyOrdered true ++
        orderedProperties selected last explicitlyOrdered true := by
  simp only [orderedProperties, if_true, List.flatMap_append]

theorem mem_orderedProperties {selected : List (String × Nat)} {order : List PropertyPosition}
    {explicitlyOrdered : List String} {p : String × Nat} (hsorted : SortedMap.Sorted selected)
    (hp : p ∈ selected) (hplaced : .property p.1 ∈ order ∨
      .remaining ∈ order ∧ p.1 ∉ explicitlyOrdered) :
    p.2 ∈ orderedProperties selected order explicitlyOrdered true := by
  simp only [orderedProperties, if_true]
  rcases hplaced with hplaced | ⟨hplaced, hfresh⟩
  · refine List.mem_flatMap.mpr ⟨_, hplaced, ?_⟩
    show p.2 ∈ (SortedMap.get p.1 selected).toList
    rw [SortedMap.get_of_mem hsorted hp]
    exact List.mem_singleton_self p.2
  · refine List.mem_flatMap.mpr ⟨_, hplaced, ?_⟩
    exact List.mem_map_of_mem (List.mem_filter.mpr ⟨hp, decide_eq_true hfresh⟩)

/-- Without the marker, the selected properties the order names, in its order. -/
theorem names_orderedProperties {explicitlyOrdered : List String} {order : List PropertyPosition}
    (hdirect : ∀ property, .property property ∈ order → (SortedMap.get property
      (directGeneratedProperties generated context binding)).isSome = true)
    (hmarker : .remaining ∉ order) :
    (orderedProperties (selectedProperties selection
        (directGeneratedProperties generated context binding)) order explicitlyOrdered true).map
        (propertyNameAt generated) =
      (namedIn order).filter (selects selection) := by
  obtain ⟨hnamed, _⟩ := directGeneratedProperties_named generated context binding
  induction order with
  | nil => rfl
  | cons position order ih =>
    obtain ⟨hne, hmarker⟩ := not_or.mp (List.mem_cons.not.mp hmarker)
    have hrest := ih (fun property hp => hdirect property (List.mem_cons_of_mem _ hp)) hmarker
    cases position with
    | property property =>
      obtain ⟨i, hi⟩ := Option.isSome_iff_exists.mp (hdirect property List.mem_cons_self)
      rw [orderedProperties_property, List.map_append, hrest, get_selected, hi, namedIn, namedIn,
        List.filterMap_cons, positionName, List.filter_cons]
      split
      · rw [Option.toList_some, List.map_singleton,
          ← hnamed.name _ (SortedMap.mem_of_get hi)]
        rfl
      · rfl
    | remaining => exact absurd rfl hne

theorem map_name {properties : List (String × Nat)} (h : Named generated properties) :
    (properties.map (·.2)).map (propertyNameAt generated) = properties.map Prod.fst := by
  rw [List.map_map]
  exact List.map_congr_left fun p hp => (h.name p hp).symm

/-- What the model selects, from a valid selection. -/
theorem autoSelected_ordered (hf : GeneratedForest generated)
    (hvalid : Valid generated context binding selection) {valueLocation : String}
    {named : List String} {seen : Bool}
    (horder : validateAutoPropertyOrder valueLocation 0 selection.orderValue [] false =
      .ok (named, seen)) :
    AutoSelected generated context binding selection (orderedProperties
      (selectedProperties selection (directGeneratedProperties generated context binding))
      selection.orderValue named seen) := by
  obtain ⟨hnodup, _, _, hnames, hseen⟩ := validateAutoPropertyOrder_ok horder
  have hnames : ∀ property, property ∈ named ↔ .property property ∈ selection.orderValue := by
    simpa using hnames
  have hseen : seen = true ↔ .remaining ∈ selection.orderValue := by simpa using hseen
  have hselected : Named generated (selectedProperties selection
      (directGeneratedProperties generated context binding)) :=
    (directGeneratedProperties_named generated context binding).1.filter _
  have hsorted : SortedMap.Sorted (selectedProperties selection
      (directGeneratedProperties generated context binding)) :=
    directGeneratedProperties_sorted.filter _
  obtain ⟨hresult, hsub⟩ := hselected.ordered_nodup hnodup hnames hseen
  have hmem (i : Nat) : (∃ p ∈ selectedProperties selection
      (directGeneratedProperties generated context binding), p.2 = i) ↔
      ∃ g, generated[i]? = some g ∧ isDirect context binding g = true ∧
        selects selection g.propertyName = true := by
    constructor
    · rintro ⟨⟨name, _⟩, hp, rfl⟩
      obtain ⟨hp, hselects⟩ := List.mem_filter.mp hp
      obtain ⟨g, hg, hdirect, rfl⟩ := (directGeneratedProperties_iff hf).mp hp
      exact ⟨g, hg, hdirect, hselects⟩
    · rintro ⟨g, hg, hdirect, hselects⟩
      exact ⟨(g.propertyName, i), List.mem_filter.mpr
        ⟨(directGeneratedProperties_iff hf).mpr ⟨g, hg, hdirect, rfl⟩, hselects⟩, rfl⟩
  have hdirect (property : String) (hp : .property property ∈ selection.orderValue) :=
    (isSome_direct_iff hf).mpr (hvalid.named property (.inr (.inr hp)))
  have hremaining : ((((selectedProperties selection (directGeneratedProperties generated context
      binding)).filter fun property => property.1 ∉ named).map (·.2)).map
        (propertyNameAt generated)).Pairwise (· < ·) := by
    rw [map_name (hselected.filter fun property => property.1 ∉ named)]
    exact SortedMap.sorted_iff_map.mp (hsorted.filter _)
  have hunordered : ∀ i ∈ ((selectedProperties selection (directGeneratedProperties generated
      context binding)).filter fun property => property.1 ∉ named).map (·.2),
      .property (propertyNameAt generated i) ∉ selection.orderValue := by
    intro i hi
    obtain ⟨p, hp, rfl⟩ := List.mem_map.mp hi
    obtain ⟨hp, hfresh⟩ := List.mem_filter.mp hp
    rw [← hselected.name p hp, ← hnames]
    exact of_decide_eq_true hfresh
  refine ⟨hresult, fun i => ?_, ?_⟩
  · rw [← hmem i]
    refine ⟨hsub i, ?_⟩
    rintro ⟨p, hp, rfl⟩
    cases seen with
    | true =>
      refine mem_orderedProperties hsorted hp ?_
      by_cases hnamed : p.1 ∈ named
      · exact .inl ((hnames p.1).mp hnamed)
      · exact .inr ⟨hseen.mp rfl, hnamed⟩
    | false =>
      rw [orderedProperties_last, List.mem_append]
      by_cases hnamed : p.1 ∈ named
      · exact .inl (mem_orderedProperties hsorted hp (.inl ((hnames p.1).mp hnamed)))
      · exact .inr (List.mem_map_of_mem (List.mem_filter.mpr ⟨hp, decide_eq_true hnamed⟩))
  · cases seen with
    | true =>
      obtain ⟨first, last, heq⟩ := List.append_of_mem (hseen.mp rfl)
      rw [heq] at hnodup hdirect
      have hfirst : .remaining ∉ first := fun h =>
        (List.disjoint_of_nodup_append hnodup) h List.mem_cons_self
      have hlast : .remaining ∉ last := (List.nodup_cons.mp hnodup.of_append_right).1
      have hsplit := orderedProperties_append (selectedProperties selection
        (directGeneratedProperties generated context binding)) first (.remaining :: last) named
      rw [orderedProperties_remaining, ← List.append_assoc, ← heq] at hsplit
      refine ⟨_, _, _, hsplit, .inl ⟨first, last, heq, ?_, ?_⟩, hremaining, hunordered⟩
      · exact names_orderedProperties
          (fun property hp => hdirect property (List.mem_append_left _ hp)) hfirst
      · exact names_orderedProperties (fun property hp =>
          hdirect property (List.mem_append_right _ (List.mem_cons_of_mem _ hp))) hlast
    | false =>
      have hmarker : .remaining ∉ selection.orderValue := fun h => Bool.noConfusion (hseen.mpr h)
      have hsplit := orderedProperties_last (selectedProperties selection
        (directGeneratedProperties generated context binding)) selection.orderValue named
      rw [← List.append_nil (orderedProperties _ _ _ true ++ _)] at hsplit
      exact ⟨_, _, _, hsplit,
        .inr ⟨hmarker, rfl, names_orderedProperties hdirect hmarker⟩, hremaining, hunordered⟩

end Exact

/-- The calls fail exactly on a selection that is not valid, never panic, and select what is asked
for, at every place of every data schema that projects. -/
theorem auto_selection_exact {σ : Type} (reader : Engine.SchemaReader σ) (maxTraversal : Nat)
    {engine : Engine.FormDefinition} (hproject : reader.compileGraph maxTraversal = .ok engine)
    (context : AuthoredBindingContext) (binding : Pointer) (selection : PropertySelection)
    (valueLocation : String) :
    ((∃ error, autoProperties (generatedNodes engine) context binding selection valueLocation =
        .error error) ↔ ¬ Valid (generatedNodes engine) context binding selection) ∧
    ∀ result, autoProperties (generatedNodes engine) context binding selection valueLocation =
        .ok result → ∃ selected, result = some selected ∧
      AutoSelected (generatedNodes engine) context binding selection selected := by
  have hf := generatedNodes_forest (reader.compileGraph_projected hproject)
  constructor
  · constructor
    · rintro ⟨error, herror⟩ hvalid
      obtain ⟨⟨named, seen⟩, horder⟩ : ∃ result, validateAutoPropertyOrder valueLocation 0
          selection.orderValue [] false = .ok result :=
        validateAutoPropertyOrder_total 0 [] false hvalid.nodup (fun _ _ => List.not_mem_nil)
          fun h => Bool.noConfusion h
      cases herror.symm.trans ((autoProperties_iff hf).mpr ⟨hvalid, named, seen, horder, rfl⟩)
    · intro hinvalid
      cases hcall : autoProperties (generatedNodes engine) context binding selection
        valueLocation with
      | error error => exact ⟨error, rfl⟩
      | ok result => exact absurd ((autoProperties_iff hf).mp hcall).1 hinvalid
  · intro result hcall
    obtain ⟨hvalid, named, seen, horder, rfl⟩ := (autoProperties_iff hf).mp hcall
    exact ⟨_, rfl, autoSelected_ordered hf hvalid horder⟩

/-! ## An address -/

/-- Three strings below the root. -/
def addressReader : Engine.SchemaReader Unit where
  root := .ok (0, ⟨{}, some (), false⟩)
  hasProperties _ := true
  propertyNames _ := ["city", "name", "street"]
  isExplicitlyClosedObject _ := false
  property _ _ := .ok (0, ⟨{}, true, .scalar .string false⟩)

def addressEngine : Engine.FormDefinition :=
  let control (name : String) : Engine.ControlDefinition :=
    ⟨[name], none, .string, [], false, {}, some (.string ""), true⟩
  ⟨[control "city", control "name", control "street"], [], [], [], {}⟩

theorem addressReader_compileGraph : addressReader.compileGraph 10 = .ok addressEngine := by
  decide +kernel

/-- The street first, then what is left without the city. -/
theorem auto_selection_address :
    AutoSelected (generatedNodes addressEngine) .root []
      ⟨[], ["city"], [.property "street", .remaining]⟩ [2, 1] := by
  have hcall : autoProperties (generatedNodes addressEngine) .root []
      ⟨[], ["city"], [.property "street", .remaining]⟩ "/root/value" = .ok (some [2, 1]) := by
    decide +kernel
  obtain ⟨selected, heq, hselected⟩ := (auto_selection_exact addressReader 10
    addressReader_compileGraph _ _ _ _).2 _ hcall
  obtain rfl := Option.some.inj heq
  exact hselected

end AutoSelection

end Schemaform
