import Schemaform.Compile.Applies
import Schemaform.Compile.Reads
import Schemaform.Compile.Recorded
import Schemaform.Resources.QueriesSpec

/-!
# Compile.Meaning

The controls of a compiled definition hold what the schemas of their places assert.

* `Decides`: a control holds a value exactly when every schema that applies asserts it.
* `scalarChoices_apart`: options are not offered beside a schema that nothing satisfies.
* `propertyShape_decides`, `itemShape_decides`: one place.
* `objectBelow_found`, `fromArray_found`: the schemas of the places a walk comes to.
* `compiled_found`, `compiled_controls_decide`: from the root on.
* `PreparedForm`, `prepared_controls_decide`: for a graph that was prepared.
-/

namespace Schemaform.Engine

open Resources (ResourceGraph GraphLocation ResourceDocument ResourceTables Library)
open Engine.Compiled

/-! ## Scalars -/

theorem mem_foldl_addUnique {values unique : List CompiledChoice} {choice : CompiledChoice}
    (h : choice ∈ values.foldl addUnique unique) : choice ∈ unique ∨ choice ∈ values := by
  induction values generalizing unique with
  | nil => exact .inl h
  | cons value values ih =>
    rcases ih h with h | h
    · unfold addUnique at h
      split at h
      · exact .inl h
      · rcases List.mem_append.mp h with h | h
        · exact .inl h
        · exact .inr (List.mem_singleton.mp h ▸ List.mem_cons_self)
    · exact .inr (List.mem_cons_of_mem _ h)

theorem scalarChoices_ne_nil {applicable : List LocatedSchema} {kind : Option ProjectedKind}
    {choices : AnnotatedChoices} (h : scalarChoices applicable kind = .ok (some choices)) :
    choices.values ≠ [] := by
  unfold scalarChoices at h
  dsimp only at h
  split at h
  · cases h
  · split at h
    · cases h
    · split at h
      · cases h
      · split at h
        · cases h
        · split at h
          · split at h <;> cases h
          · rename_i hsome
            cases h
            intro hnil
            exact hsome (List.isEmpty_iff.mpr hnil)

/-- Any option has passed the test that no schema is `false`. -/
theorem scalarChoices_apart {applicable : List LocatedSchema} {kind : Option ProjectedKind}
    {choices : AnnotatedChoices} (h : scalarChoices applicable kind = .ok (some choices)) :
    ∀ located ∈ applicable, located.schema ≠ .bool false := by
  intro located hl
  obtain ⟨choice, hchoice⟩ := List.exists_mem_of_ne_nil _ (scalarChoices_ne_nil h)
  obtain ⟨-, hmem⟩ := scalarChoices_some h
  have hnarrowed := (mem_foldl_addUnique ((hmem choice).mp hchoice)).resolve_left
    List.not_mem_nil
  have hall := List.all_eq_true.mp (List.mem_filter.mp hnarrowed).2 located hl
  exact bne_iff_ne.mp (Bool.and_eq_true_iff.mp hall).1

/-- The control holds what is asserted by all that applies. -/
def Decides (control : Engine.ControlDefinition) (applies : GraphLocation → Prop) : Prop :=
  ∀ value, value.WF → (controlValueIsCompatible control value = true ↔
    ∀ location, applies location → Asserts location.schema value)

section Scalars

variable {graph : ResourceGraph} {fuel : Nat} {expansion : SchemaExpansion}
  {projected : ProjectedSchemas} {P applies : GraphLocation → Prop}
  {control : Engine.ControlDefinition}

theorem found_asserts (hfound : Found P applies projected.schemas) (value : Value) :
    (∀ located ∈ plainSchemas projected.schemas, Asserts located.schema value) ↔
      ∀ location, applies location → Asserts location.schema value := by
  constructor
  · intro h location happlies
    obtain ⟨located, hl, rfl⟩ := (hfound.exact location).mp happlies
    exact h located.plain (List.mem_map_of_mem hl)
  · intro h located hl
    obtain ⟨applicable, happlicable, rfl⟩ := List.mem_map.mp hl
    exact h applicable.location ((hfound.exact _).mpr ⟨applicable, happlicable, rfl⟩)

theorem choices_decide (hprojected : projectedSchemas graph fuel expansion = .ok projected)
    (wf : ∀ located ∈ projected.schemas, located.schema.WF)
    (hfound : Found P applies projected.schemas) {choices : AnnotatedChoices}
    (hchoices : projected.choices = some choices) (hshown : choices.plain.ShownBy control) :
    Decides control applies := by
  intro value hv
  obtain ⟨hkind, hscalar⟩ := projectedSchemas_choices hprojected
  have hscalar := hscalar choices hchoices
  rw [hkind] at hscalar
  obtain ⟨hc, hoffers⟩ :=
    scalarChoices_offers (plainSchemas_wf wf) (scalarChoices_apart hscalar) hscalar hv
  obtain ⟨hcontrol, hvalues, hnull⟩ := hshown
  have hkinds : control.kind = choices.controlKind := hcontrol
  have hnull : control.acceptsNull = choices.values.any (·.value.isNull) := by
    rw [hnull, AnnotatedChoices.plain, List.any_map]
    rfl
  rw [← found_asserts hfound, ← hoffers]
  refine choices_compatible hc ?_ hvalues hnull hv
  rw [hkinds]
  exact annotatedChoices_controlKind choices

/-- Without findings there are no options only where none are declared. -/
theorem projectedSchemas_plain (hprojected : projectedSchemas graph fuel expansion = .ok projected)
    (hfindings : projected.findings = []) (hchoices : projected.choices = none) :
    scalarChoices (plainSchemas projected.schemas) projected.kind = .ok none := by
  obtain ⟨⟨choices, choiceFindings⟩, hok, h⟩ := bind_eq_ok.mp hprojected
  obtain ⟨deferred, -, h⟩ := bind_eq_ok.mp h
  cases h
  unfold choicesOrFinding at hok
  dsimp only at hchoices hfindings ⊢
  split at hok
  · rename_i found hfound
    cases hok
    rw [hfound, hchoices]
  · cases hok
    simp at hfindings
  · cases hok

theorem scalar_decides (hprojected : projectedSchemas graph fuel expansion = .ok projected)
    (wf : ∀ located ∈ projected.schemas, located.schema.WF)
    (hfound : Found P applies projected.schemas) (hfindings : projected.findings = [])
    (hchoices : projected.choices = none) {kind : ProjectedKind} {scalarKind : ScalarKind}
    (hkind : projected.kind = some kind) (hscalar : kind.scalarKind = some scalarKind)
    (hshown : scalarKind.ShownBy (applicableAcceptsNull (plainSchemas projected.schemas)) control) :
    Decides control applies := by
  intro value hv
  obtain ⟨hinfer, -⟩ := projectedSchemas_choices hprojected
  obtain ⟨he, hc, hr⟩ := scalarChoices_none
    (projectedSchemas_plain hprojected hfindings hchoices)
  obtain ⟨hcontrol, -, hnull⟩ := hshown
  have hcontrolKind : kind.controlKind = some control.kind := by
    rw [hcontrol]
    cases kind <;> cases hscalar <;> rfl
  rw [← found_asserts hfound, asserts_iff_sources (plainSchemas_wf wf) hv,
    controlKind_compatible (hinfer.symm.trans hkind) hcontrolKind rfl hnull value, hr, he, hc]
  constructor
  · intro h
    refine ⟨fun declared hd => (typeHolds_iff hv declared).mp (h declared hd), ?_⟩
    exact ⟨fun _ hm => absurd hm List.not_mem_nil, fun _ hm => absurd hm List.not_mem_nil,
      fun _ hm => absurd hm List.not_mem_nil⟩
  · intro h declared hd
    exact (typeHolds_iff hv declared).mpr (h.1 declared hd)

end Scalars

/-! ## Places -/

section Places

variable {compiler : GraphReader} {P applies : GraphLocation → Prop}
  (hP : Addressed compiler.graph P)

include hP in
theorem projected_found {schemas : List ApplicableSchema} {activeLocations : List SchemaIdentity}
    {wf : ∀ located ∈ schemas, located.schema.WF} {visits : Nat}
    {projected : { projected : ProjectedSchemas //
      ∀ located ∈ projected.schemas, located.schema.WF }}
    (hschemas : Found P applies schemas)
    (h : compiler.projected schemas activeLocations wf = .ok (visits, projected))
    (hfindings : projected.1.findings = []) :
    Found P (Applying compiler.graph applies) projected.1.schemas ∧
      ∃ expansion, projectedSchemas compiler.graph compiler.fuel expansion = .ok projected.1 := by
  obtain ⟨expansion, hexpansion, h⟩ := bind_eq_ok.mp h
  obtain ⟨found, hfound, h⟩ := bind_eq_ok.mp h
  cases h
  have hprojected := certified_eq_ok.mp hfound
  have hrecursions : expansion.1.recursiveFindings = [] := by
    obtain ⟨choices, -, hok⟩ := bind_eq_ok.mp hprojected
    obtain ⟨deferred, -, hok⟩ := bind_eq_ok.mp hok
    rw [← Except.ok.inj hok] at hfindings
    simp only [List.append_eq_nil_iff] at hfindings
    exact hfindings.1.1.1
  refine ⟨?_, expansion.1, hprojected⟩
  rw [projectedSchemas_schemas hprojected]
  exact expandReferences_applying hP hschemas (certified_eq_ok.mp hexpansion) hrecursions

/-- A property that is shown, walked into or an array was read without findings. -/
theorem property_read {object : ObjectSchemas} {name : String} {visits : Nat}
    {property : Property ObjectSchemas} (h : compiler.property object name = .ok (visits, property))
    (hshape : property.shape ≠ .unsupported) :
    ∃ children wf, ∃ projected : { projected : ProjectedSchemas //
        ∀ located ∈ projected.schemas, located.schema.WF },
      childSchemas compiler.graph object.schemas name = .ok children ∧
      compiler.projected children object.activeLocations wf = .ok (visits, projected) ∧
      projected.1.findings = [] ∧
      property.shape = compiler.propertyShape projected.1 object.activeLocations projected.2 := by
  obtain ⟨children, hchildren, h⟩ := bind_eq_ok.mp h
  obtain ⟨⟨visits', projected⟩, hprojected, h⟩ := bind_eq_ok.mp h
  cases h
  dsimp only at hshape ⊢
  by_cases hfindings : (projected.1.findings ++ projected.1.kindConflictFindings).isEmpty = true
  · rw [if_pos hfindings]
    have hnil := List.isEmpty_iff.mp hfindings
    rw [List.append_eq_nil_iff] at hnil
    exact ⟨children.1, children.2, projected, certified_eq_ok.mp hchildren, hprojected, hnil.1, rfl⟩
  · rw [if_neg hfindings] at hshape
    exact absurd rfl hshape

include hP in
/-- The schemas of a property that is read are those that apply to it. -/
theorem property_found {object : ObjectSchemas} {name : String} {visits : Nat}
    {property : Property ObjectSchemas} (hobject : Found P applies object.schemas)
    (h : compiler.property object name = .ok (visits, property))
    (hshape : property.shape ≠ .unsupported) :
    ∃ projected : { projected : ProjectedSchemas //
        ∀ located ∈ projected.schemas, located.schema.WF },
      Found P (Applying compiler.graph fun found => ∃ location, applies location ∧
        PropertyOf compiler.graph name location found) projected.1.schemas ∧
      (∃ expansion, projectedSchemas compiler.graph compiler.fuel expansion = .ok projected.1) ∧
      projected.1.findings = [] ∧
      property.shape = compiler.propertyShape projected.1 object.activeLocations projected.2 := by
  obtain ⟨children, wf, projected, hchildren, hprojected, hfindings, heq⟩ := property_read h hshape
  obtain ⟨hfound, hexpansion⟩ :=
    projected_found hP (childSchemas_applying hP hobject hchildren) hprojected hfindings
  exact ⟨projected, hfound, hexpansion, hfindings, heq⟩

theorem propertyShape_decides {projected : ProjectedSchemas} {expansion : SchemaExpansion}
    (hprojected : projectedSchemas compiler.graph compiler.fuel expansion = .ok projected)
    (wf : ∀ located ∈ projected.schemas, located.schema.WF)
    (hfound : Found P applies projected.schemas) (hfindings : projected.findings = [])
    {activeLocations : List SchemaIdentity} {control : Engine.ControlDefinition}
    (hshown : (compiler.propertyShape projected activeLocations wf).ShownBy control) :
    Decides control applies := by
  unfold GraphReader.propertyShape at hshown
  cases hchoices : projected.choices with
  | some choices =>
    rw [hchoices] at hshown
    exact choices_decide hprojected wf hfound hchoices hshown
  | none =>
    cases hkind : projected.kind with
    | none =>
      rw [hchoices, hkind] at hshown
      exact hshown.elim
    | some kind =>
      rw [hchoices, hkind] at hshown
      cases kind with
      | object => exact hshown.elim
      | array => exact hshown.elim
      | null => exact hshown.elim
      | _ => exact scalar_decides hprojected wf hfound hfindings hchoices hkind rfl hshown

theorem itemShape_decides {projected : ProjectedSchemas} {expansion : SchemaExpansion}
    (hprojected : projectedSchemas compiler.graph compiler.fuel expansion = .ok projected)
    (wf : ∀ located ∈ projected.schemas, located.schema.WF)
    (hfound : Found P applies projected.schemas) (hfindings : projected.findings = [])
    {control : Engine.ControlDefinition}
    (hshown : (GraphReader.scalarShape projected).ShownBy control) : Decides control applies := by
  unfold GraphReader.scalarShape at hshown
  cases hchoices : projected.choices with
  | some choices =>
    rw [hchoices] at hshown
    exact choices_decide hprojected wf hfound hchoices hshown
  | none =>
    rw [hchoices] at hshown
    cases hkind : projected.kind with
    | none =>
      rw [hkind] at hshown
      exact hshown.elim
    | some kind =>
      rw [hkind] at hshown
      cases hscalar : kind.scalarKind with
      | none =>
        rw [Option.bind_some, hscalar] at hshown
        exact hshown.elim
      | some scalarKind =>
        rw [Option.bind_some, hscalar] at hshown
        exact scalar_decides hprojected wf hfound hfindings hchoices hkind hscalar hshown

include hP in
/-- The items of an array that are shown or walked into are read from all schemas for them. -/
theorem items_found {schemas : List ApplicableSchema} {activeLocations : List SchemaIdentity}
    {wf : ∀ located ∈ schemas, located.schema.WF} {visits : Nat} {items : Items ObjectSchemas}
    (hschemas : Found P applies schemas)
    (h : compiler.items schemas activeLocations wf = .ok (visits, items))
    (hshape : items.shape ≠ .unsupported) :
    ∃ projected : { projected : ProjectedSchemas //
        ∀ located ∈ projected.schemas, located.schema.WF },
      Found P (Applying compiler.graph fun found => ∃ location, applies location ∧
        ItemOf compiler.graph location found) projected.1.schemas ∧
      (∃ expansion, projectedSchemas compiler.graph compiler.fuel expansion = .ok projected.1) ∧
      projected.1.findings = [] ∧
      items.shape = if projected.1.kind = some .object then
          .object (GraphReader.objectSchemas projected.1 activeLocations projected.2)
        else GraphReader.scalarShape projected.1 := by
  obtain ⟨children, hchildren, h⟩ := bind_eq_ok.mp h
  split at h
  · cases h
    exact absurd rfl hshape
  · obtain ⟨⟨visits', projected⟩, hprojected, h⟩ := bind_eq_ok.mp h
    cases h
    dsimp only at hshape ⊢
    by_cases hfindings : projected.1.findings.isEmpty = true
    · have hnil := List.isEmpty_iff.mp hfindings
      obtain ⟨hfound, hexpansion⟩ := projected_found hP
        (itemSchemas_applying hP hschemas (certified_eq_ok.mp hchildren)) hprojected hnil
      refine ⟨projected, hfound, hexpansion, hnil, ?_⟩
      rw [GraphReader.itemShape, if_pos hfindings]
    · rw [GraphReader.itemShape, if_neg hfindings] at hshape
      exact absurd rfl hshape

theorem propertyShape_object {projected : ProjectedSchemas} {activeLocations : List SchemaIdentity}
    {wf : ∀ located ∈ projected.schemas, located.schema.WF} {child : ObjectSchemas}
    (h : compiler.propertyShape projected activeLocations wf = .object child) :
    child.schemas = projected.schemas := by
  unfold GraphReader.propertyShape at h
  split at h
  · cases h
  · cases h
    rfl
  · cases h
  · split at h <;> cases h
  · cases h

theorem propertyShape_array {projected : ProjectedSchemas} {activeLocations : List SchemaIdentity}
    {wf : ∀ located ∈ projected.schemas, located.schema.WF} {shape : ArrayShape ObjectSchemas}
    (h : compiler.propertyShape projected activeLocations wf = .array shape) :
    shape.items = compiler.items projected.schemas activeLocations wf := by
  unfold GraphReader.propertyShape at h
  split at h
  · cases h
  · cases h
  · cases h
    rfl
  · split at h <;> cases h
  · cases h

theorem scalarShape_object {projected : ProjectedSchemas} {child : ObjectSchemas} :
    GraphReader.scalarShape projected ≠ .object child := by
  intro h
  unfold GraphReader.scalarShape at h
  split at h
  · cases h
  · split at h <;> cases h

end Places

/-! ## Walks -/

section Walks

variable {compiler : GraphReader} {root location : GraphLocation} {wf : location.schema.WF}
  {P : GraphLocation → Prop} (hP : Addressed compiler.graph P) {start : Option Pointer}
  {first : ObjectSchemas} {base : InstancePlace}
  (hfirst : Found P (AppliesAt compiler.graph root (base.descend (start.getD []))) first.schemas)

include hP hfirst

/-- By induction on the walk. -/
theorem objectBelow_found {parent : Option Pointer} {object : ObjectSchemas}
    (h : (compiler.reader location wf).ObjectBelow start first parent object) :
    Found P (AppliesAt compiler.graph root (base.descend (parent.getD []))) object.schemas := by
  induction h with
  | start => exact hfirst
  | @property parent object name visits property child _ _ read shape ih =>
    obtain ⟨projected, hfound, -, -, heq⟩ :=
      property_found hP ih read (by
        intro hunsupported
        cases shape.symm.trans hunsupported)
    rw [propertyShape_object (heq.symm.trans shape), Option.getD_some,
      InstancePlace.descend_append]
    exact hfound

theorem readBelow_found {binding : Pointer} {shape : PropertyShape ObjectSchemas}
    (h : (compiler.reader location wf).ReadBelow start first binding shape)
    (hshape : shape ≠ .unsupported) :
    ∃ (projected : { projected : ProjectedSchemas //
        ∀ located ∈ projected.schemas, located.schema.WF }) (activeLocations : List SchemaIdentity),
      Found P (AppliesAt compiler.graph root (base.descend binding)) projected.1.schemas ∧
      (∃ expansion, projectedSchemas compiler.graph compiler.fuel expansion = .ok projected.1) ∧
      projected.1.findings = [] ∧
      shape = compiler.propertyShape projected.1 activeLocations projected.2 := by
  obtain ⟨parent, object, name, visits, property, hbelow, -, rfl, hread, rfl⟩ := h
  obtain ⟨projected, hfound, hexpansion, hfindings, heq⟩ :=
    property_found hP (objectBelow_found hP hfirst hbelow) hread hshape
  refine ⟨projected, object.activeLocations, ?_, hexpansion, hfindings, heq⟩
  rw [InstancePlace.descend_append]
  exact hfound

theorem fromProperty_decides {control : Engine.ControlDefinition}
    (h : (compiler.reader location wf).FromProperty start first control) :
    Decides control (AppliesAt compiler.graph root (base.descend control.binding)) := by
  obtain ⟨shape, hread, hshown⟩ := h
  obtain ⟨projected, activeLocations, hfound, ⟨expansion, hexpansion⟩, hfindings, rfl⟩ :=
    readBelow_found hP hfirst hread (by
      intro hunsupported
      rw [hunsupported] at hshown
      exact hshown)
  exact propertyShape_decides hexpansion projected.2 hfound hfindings hshown

/-- The items of an array that was read: objects with the schemas that apply to them, or scalars
whose controls decide. -/
theorem fromArray_found {array : Engine.ArrayDefinition}
    (h : (compiler.reader location wf).FromArray start first array) :
    ∃ items, (compiler.reader location wf).FromTemplate items array.itemTemplate ∧
      (∀ object, items.shape = .object object → Found P (AppliesAt compiler.graph root
        ((InstancePlace.item (base.descend array.binding)).descend ((some ([] : Pointer)).getD [])))
        object.schemas) ∧
      ∀ control, items.shape.ShownBy control →
        Decides control (AppliesAt compiler.graph root (.item (base.descend array.binding))) := by
  obtain ⟨shape, visits, items, hread, hitems, htemplate⟩ := h
  obtain ⟨projected, activeLocations, hfound, -, -, hshape⟩ :=
    readBelow_found hP hfirst hread (by
      intro hunsupported
      cases hunsupported)
  rw [propertyShape_array hshape.symm] at hitems
  have hitem := items_found hP hfound hitems
  refine ⟨items, htemplate, fun object hobject => ?_, fun control hshown => ?_⟩
  · obtain ⟨item, hfound, -, -, heq⟩ := hitem (by
      intro hunsupported
      cases hobject.symm.trans hunsupported)
    rw [hobject] at heq
    split at heq
    · cases heq
      exact hfound
    · exact absurd heq.symm scalarShape_object
  · obtain ⟨item, hfound, ⟨expansion, hexpansion⟩, hfindings, heq⟩ := hitem (by
      intro hunsupported
      rw [hunsupported] at hshown
      exact hshown)
    rw [heq] at hshown
    split at hshown
    · exact hshown.elim
    · exact itemShape_decides hexpansion item.2 hfound hfindings hshown

theorem fromArray_decides {array : Engine.ArrayDefinition}
    (h : (compiler.reader location wf).FromArray start first array) :
    ∀ control ∈ array.itemTemplate.controls, Decides control (AppliesAt compiler.graph root
      ((InstancePlace.item (base.descend array.binding)).descend control.binding)) := by
  intro control hcontrol
  obtain ⟨items, htemplate, hobject, hscalar⟩ := fromArray_found hP hfirst h
  rcases htemplate.controls control hcontrol with ⟨hbinding, hshown⟩ | ⟨object, hshape, hfrom⟩
  · rw [hbinding]
    exact hscalar control hshown
  · exact fromProperty_decides hP (hobject object hshape) hfrom

end Walks

/-! ## Definitions -/

/-- Every control holds what is asserted by all that applies at its place. -/
structure FormDefinition.DecidedBy (definition : Engine.FormDefinition)
    (applies : InstancePlace → GraphLocation → Prop) : Prop where
  controls : ∀ control ∈ definition.controls,
    Decides control (applies (InstancePlace.root.descend control.binding))
  templates : ∀ array ∈ definition.arrays, ∀ control ∈ array.itemTemplate.controls,
    Decides control (applies
      ((InstancePlace.item (InstancePlace.root.descend array.binding)).descend control.binding))

/-- The schemas of a root without findings are those that apply to it. -/
theorem root_found {compiler : GraphReader} {P : GraphLocation → Prop}
    (hP : Addressed compiler.graph P) {location : GraphLocation} {wf : location.schema.WF}
    (hlocation : P location) {visits : Nat} {shape : RootShape ObjectSchemas}
    (h : compiler.root location wf = .ok (visits, shape)) (hfindings : shape.findings = false)
    {first : ObjectSchemas} (hfirst : shape.object = some first) :
    Found P (AppliesAt compiler.graph location .root) first.schemas := by
  obtain ⟨expansion, hexpansion, h⟩ := bind_eq_ok.mp h
  obtain ⟨⟨choices, choiceFindings⟩, -, h⟩ := bind_eq_ok.mp h
  obtain ⟨findings, hroot, h⟩ := bind_eq_ok.mp h
  cases h
  dsimp only at hfindings hfirst
  have hrecursions : expansion.1.recursiveFindings = [] := by
    obtain ⟨deferred, -, hroot⟩ := bind_eq_ok.mp hroot
    obtain ⟨shape, -, hroot⟩ := bind_eq_ok.mp hroot
    rw [Bool.not_eq_false', List.isEmpty_iff, ← Except.ok.inj hroot] at hfindings
    simp only [List.append_eq_nil_iff] at hfindings
    exact hfindings.1.1.1.1
  have hgiven : Found P (· = location) [locatedFromGraph location] := by
    refine ⟨fun located hl => ?_, fun other => ?_⟩
    · rw [List.mem_singleton.mp hl]
      exact hlocation
    · constructor
      · rintro rfl
        exact ⟨_, List.mem_singleton_self _, rfl⟩
      · rintro ⟨located, hl, rfl⟩
        rw [List.mem_singleton.mp hl]
        rfl
  split at hfirst
  · cases hfirst
    exact expandReferences_applying hP hgiven (certified_eq_ok.mp hexpansion) hrecursions
  · cases hfirst

/-- Where the root itself is no unsupported region, what compiles was read from all that applies. -/
theorem compiled_found {compiler : GraphReader} {P : GraphLocation → Prop}
    (hP : Addressed compiler.graph P) {location : GraphLocation} (hlocation : P location)
    (hroot : location.schema.WF) {definition : Compiled.FormDefinition}
    (h : Compiled.compileGraph compiler.digest compiler.usizeMax compiler.graph compiler.fuel
      location compiler.maxTraversal = .ok definition)
    (hregions : ∀ region ∈ definition.unsupportedRegions, region.binding ≠ []) :
    ∃ shape first, shape.object = some first ∧
      (compiler.reader location hroot).GraphRecords shape definition.plain ∧
      Found P (AppliesAt compiler.graph location
        (InstancePlace.root.descend ((none : Option Pointer).getD []))) first.schemas := by
  obtain ⟨visits, shape, hread, hrecords⟩ :=
    SchemaReader.compileGraph_records (compileGraph_refines hroot h)
  have hread : compiler.root location hroot = .ok (visits, shape) := hread
  have hwhole : ¬ (shape.findings = true ∨ shape.object = none) := by
    intro hunsupported
    obtain ⟨region, hregion, hbinding⟩ := hrecords.unsupported hunsupported
    obtain ⟨found, hfound, rfl⟩ := List.mem_map.mp hregion
    exact hregions found hfound hbinding
  obtain ⟨hfindings, hobject⟩ := not_or.mp hwhole
  obtain ⟨first, hfirst⟩ := Option.ne_none_iff_exists'.mp hobject
  exact ⟨shape, first, hfirst, hrecords,
    root_found hP hlocation hread (Bool.not_eq_true _ ▸ hfindings) hfirst⟩

theorem compiled_controls_decide {compiler : GraphReader} {P : GraphLocation → Prop}
    (hP : Addressed compiler.graph P) {location : GraphLocation} (hlocation : P location)
    (hroot : location.schema.WF) {definition : Compiled.FormDefinition}
    (h : Compiled.compileGraph compiler.digest compiler.usizeMax compiler.graph compiler.fuel
      location compiler.maxTraversal = .ok definition)
    (hregions : ∀ region ∈ definition.unsupportedRegions, region.binding ≠ []) :
    definition.plain.DecidedBy (AppliesAt compiler.graph location) := by
  obtain ⟨shape, first, hfirst, hrecords, hfound⟩ :=
    compiled_found hP hlocation hroot h hregions
  refine ⟨fun control hcontrol => ?_, fun array harray => ?_⟩
  · obtain ⟨other, hother, hfrom⟩ := hrecords.controls control hcontrol
    cases hfirst.symm.trans hother
    exact fromProperty_decides hP hfound hfrom
  · obtain ⟨other, hother, hfrom⟩ := hrecords.arrays array harray
    cases hfirst.symm.trans hother
    exact fromArray_decides hP hfound hfrom

/-! ## Prepared graphs -/

/-- The locations of prepared tables have their addresses in them. -/
theorem located_addressed {library : Library} {given : List ResourceDocument}
    {tables : ResourceTables} (hinv : ResourceTables.WellFormed library given tables) :
    Addressed (tables.graph library.uris) (ResourceTables.Located tables) where
  target h := (ResourceTables.resolveReference_yields hinv _ _).returns_of_ok h
  below := by
    intro location tokens schema found hlocation hschema h
    refine (ResourceTables.normalizeLocation_yields hinv ?_).returns_of_ok h
    refine ⟨hlocation.root, ?_, ?_⟩
    · show location.documentPointer ++ tokens =
        location.resourceRoot ++ (location.pointer ++ tokens)
      rw [hlocation.below, List.append_assoc]
    · show Resources.schemaIn tables.documents location.documentIndex
        (location.documentPointer ++ tokens) = some schema
      rw [Resources.schemaIn_append, hlocation.schema, Option.bind_some, hschema]
  address := by
    intro location other hlocation hother hresource hpointer
    have hroots := hlocation.root.symm.trans (hresource ▸ hother.root)
    obtain ⟨schema, documentIndex, resource, pointer, documentPointer, resourceRoot⟩ := location
    obtain ⟨schema', documentIndex', resource', pointer', documentPointer', resourceRoot'⟩ := other
    cases hresource
    cases hpointer
    cases hroots
    obtain rfl : documentPointer = documentPointer' := hlocation.below.trans hother.below.symm
    have hschema := hlocation.schema.symm.trans hother.schema
    cases hschema
    rfl

/-- A form compiled from resources that were prepared, whose root is no unsupported region. -/
structure PreparedForm (library : Library) (tables : ResourceTables) (location : GraphLocation)
    (definition : Compiled.FormDefinition) : Prop where
  prepared : ∃ rootUri rootDocument resources defaultDialect more, Resources.prepare library
    (Resources.depthBound library rootUri rootDocument resources + more) rootUri rootDocument
    resources defaultDialect = .ok tables
  documents : DocumentsWF (tables.graph library.uris)
  root : (tables.graph library.uris).locationFromRoot tables.root = .ok location
  compiled : ∃ digest usizeMax fuel maxTraversal, Compiled.compileGraph digest usizeMax
    (tables.graph library.uris) fuel location maxTraversal = .ok definition
  whole : ∀ region ∈ definition.unsupportedRegions, region.binding ≠ []

section Prepared

variable {library : Library} {tables : ResourceTables} {location : GraphLocation}
  {definition : Compiled.FormDefinition}

theorem PreparedForm.compiler (h : PreparedForm library tables location definition) :
    ∃ (compiler : GraphReader) (P : GraphLocation → Prop),
      compiler.graph = tables.graph library.uris ∧ Addressed compiler.graph P ∧ P location ∧
      location.schema.WF ∧ Compiled.compileGraph compiler.digest compiler.usizeMax compiler.graph
        compiler.fuel location compiler.maxTraversal = .ok definition := by
  obtain ⟨rootUri, rootDocument, resources, defaultDialect, more, hprepare⟩ := h.prepared
  obtain ⟨given, -, hprepared⟩ := (Resources.prepare_yields library rootUri rootDocument resources
    defaultDialect more).returns_of_ok hprepare
  obtain ⟨-, first, -, hopened⟩ := hprepared.root
  have hlocated := (ResourceTables.locationFromRoot_yields hprepared.wellFormed
    hopened.canonical).returns_of_ok h.root
  obtain ⟨digest, usizeMax, fuel, maxTraversal, hcompiled⟩ := h.compiled
  exact ⟨⟨digest, usizeMax, tables.graph library.uris, fuel, maxTraversal, h.documents⟩,
    ResourceTables.Located tables, rfl, located_addressed hprepared.wellFormed, hlocated.1,
    locationFromRoot_wf h.documents h.root, hcompiled⟩

/-- The controls accept what all schemas accept that apply at their places. -/
theorem prepared_controls_decide (h : PreparedForm library tables location definition) :
    definition.plain.DecidedBy (AppliesAt (tables.graph library.uris) location) := by
  obtain ⟨compiler, P, hgraph, hP, hlocated, hroot, hcompiled⟩ := h.compiler
  rw [← hgraph]
  exact compiled_controls_decide hP hlocated hroot hcompiled h.whole

end Prepared

namespace MeaningSample

/-- A text and an array of booleans. -/
def schema : Value :=
  .object [
    ("$schema", .string Resources.draft202012),
    ("properties", .object [
      ("a", .object [("type", .string "string")]),
      ("b", .object [("items", .object [("type", .string "boolean")]),
        ("type", .string "array")])]),
    ("type", .string "object")]

def library : Library := Resources.Sample.plainLibrary

def prepared : Except Resources.PrepareError ResourceTables :=
  Resources.prepare library (Resources.depthBound library "s:r" schema [] + 0) "s:r" schema [] none

def compiled (tables : ResourceTables) (location : GraphLocation) :
    Except CompileError Compiled.FormDefinition :=
  Compiled.compileGraph (fun _ => 0) 100 (tables.graph library.uris) 20 location 30

def form : Option (ResourceTables × GraphLocation × Compiled.FormDefinition) := do
  let tables ← prepared.toOption
  let location ← ((tables.graph library.uris).locationFromRoot tables.root).toOption
  let definition ← (compiled tables location).toOption
  pure (tables, location, definition)

/-- All of the form is bound to the two properties. -/
def isBound (tables : ResourceTables) (definition : Compiled.FormDefinition) : Bool :=
  (tables.graph library.uris).documents.all (·.WF) &&
    definition.unsupportedRegions.all (·.binding ≠ []) &&
    definition.plain.controls.map (·.binding) == [["a"]] &&
    definition.plain.arrays.map (·.binding) == [["b"]]

theorem form_isBound :
    form.any (fun (tables, _, definition) => isBound tables definition) = true := by
  decide +kernel

theorem form_prepared : ∃ tables location definition,
    PreparedForm library tables location definition ∧
      definition.plain.controls.map (·.binding) = [["a"]] ∧
      definition.plain.arrays.map (·.binding) = [["b"]] := by
  obtain ⟨⟨tables, location, definition⟩, hform, hbound⟩ := (Option.any_eq_true ..).mp form_isBound
  obtain ⟨tables, htables, hform⟩ := Option.bind_eq_some_iff.mp hform
  obtain ⟨location, hlocation, hform⟩ := Option.bind_eq_some_iff.mp hform
  obtain ⟨definition, hdefinition, hform⟩ := Option.bind_eq_some_iff.mp hform
  cases hform
  simp only [isBound, Bool.and_eq_true, List.all_eq_true, decide_eq_true_eq, beq_iff_eq] at hbound
  obtain ⟨⟨⟨hgraph, hregions⟩, hcontrols⟩, harrays⟩ := hbound
  refine ⟨tables, location, definition, ⟨?_, hgraph, ?_, ?_, hregions⟩, hcontrols, harrays⟩
  · exact ⟨"s:r", schema, [], none, 0, toOption_eq_some.mp htables⟩
  · exact toOption_eq_some.mp hlocation
  · exact ⟨_, 100, 20, 30, toOption_eq_some.mp hdefinition⟩

end MeaningSample

open MeaningSample in
theorem prepared_controls_decide_text : ∃ tables location definition,
    PreparedForm library tables location definition ∧
      definition.plain.controls.map (·.binding) = [["a"]] ∧
      definition.plain.arrays.map (·.binding) = [["b"]] ∧
      definition.plain.DecidedBy (AppliesAt (tables.graph library.uris) location) := by
  obtain ⟨tables, location, definition, hprepared, hcontrols, harrays⟩ := form_prepared
  exact ⟨tables, location, definition, hprepared, hcontrols, harrays,
    prepared_controls_decide hprepared⟩

end Schemaform.Engine
