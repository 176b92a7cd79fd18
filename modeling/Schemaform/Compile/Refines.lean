import Schemaform.Compile.Reader
import Schemaform.Compile.WellFormed
import Schemaform.Json.Preserve

/-!
# Compile.Refines

The compiler does what the abstract projection does over its reader.

* `objectCreationSeed_eq`, `arrayCreationSeed_eq`: seeds are read from the annotations alone.
* `ProjectionState.plain`: what the projection knows of the compiler's state.
* `WalkRefines`: one walk goes along with another.
* `compileProperties_refines`, by induction on the depth.
* `compileGraph_refines`, `reader_reads`.
-/

namespace Schemaform.Engine

open Resources (ResourceGraph GraphLocation)
open Engine.Compiled

/-! ## Seeds -/

theorem foldl_pushUniqueValue_filter {test : Value → Bool}
    (htest : ∀ a b, jsonValuesEqual a b = true → test a = test b) (values kept : List Value) :
    (values.filter test).foldl pushUniqueValue (kept.filter test) =
      (values.foldl pushUniqueValue kept).filter test := by
  induction values generalizing kept with
  | nil => rfl
  | cons value values ih =>
    rw [List.foldl_cons, ← ih]
    by_cases hvalue : test value = true
    · rw [List.filter_cons_of_pos hvalue, List.foldl_cons]
      congr 1
      -- only values that pass the test equal one that does
      have hany : (kept.filter test).any (jsonValuesEqual · value) =
          kept.any (jsonValuesEqual · value) := by
        rw [Bool.eq_iff_iff, List.any_eq_true, List.any_eq_true]
        constructor
        · rintro ⟨other, hother, hequal⟩
          exact ⟨other, (List.mem_filter.mp hother).1, hequal⟩
        · rintro ⟨other, hother, hequal⟩
          have hpasses : test other = true := (htest _ _ hequal).trans hvalue
          exact ⟨other, List.mem_filter.mpr ⟨hother, hpasses⟩, hequal⟩
      unfold pushUniqueValue
      rw [hany]
      split
      · rfl
      · simp [List.filter_append, hvalue]
    · rw [List.filter_cons_of_neg hvalue]
      congr 1
      unfold pushUniqueValue
      split
      · rfl
      · simp [List.filter_append, hvalue]

theorem isArray_congr {a b : Value} (h : jsonValuesEqual a b = true) : a.isArray = b.isArray := by
  cases a <;> cases b <;> simp_all [jsonValuesEqual_iff, Value.isArray]

variable (digest : List UInt8 → Nat)

/-- The defaults that pass a test, in either order of filtering and collecting. -/
theorem eligible_perm {test : Value → Bool}
    (htest : ∀ a b, jsonValuesEqual a b = true → test a = test b)
    (applicable : List LocatedSchema) :
    ((dataSchemaAnnotations digest applicable).defaults.filter test).Perm
      (((applicable.filterMap fun located => located.schema.get "default").filter test).foldl
        pushUniqueValue []) := by
  have hfold := foldl_pushUniqueValue_filter htest
    (applicable.filterMap fun located => located.schema.get "default") []
  rw [List.filter_nil] at hfold
  rw [hfold]
  exact (defaults_perm digest).filter test

theorem eligibleDefault_of_perm {applicable : List LocatedSchema} {test : Value → Bool}
    {eligible : List Value} {otherwise : Value}
    (h : eligible.Perm (((applicable.filterMap fun located =>
      located.schema.get "default").filter test).foldl pushUniqueValue [])) :
    eligibleDefault applicable test otherwise =
      if eligible.length = 1 then eligible.headD otherwise else otherwise := by
  unfold eligibleDefault
  generalize ((applicable.filterMap fun located => located.schema.get "default").filter test).foldl
    pushUniqueValue [] = folded at h ⊢
  have hlength := h.length_eq
  split
  · rw [List.perm_singleton.mp h]
    rfl
  · rename_i hnot
    rw [if_neg]
    intro hone
    obtain ⟨default, hdefault⟩ := List.length_eq_one_iff.mp (hlength.symm.trans hone)
    exact hnot default hdefault

theorem objectCreationSeed_eq (applicable : List LocatedSchema) :
    Compiled.objectCreationSeed applicable =
      Engine.objectCreationSeed (dataSchemaAnnotations digest applicable) := by
  have htest (a b : Value) (h : jsonValuesEqual a b = true) : a.isObject = b.isObject :=
    isObject_congr h
  rw [Compiled.objectCreationSeed, eligibleDefault_of_perm (eligible_perm digest htest applicable)]
  unfold Engine.objectCreationSeed
  split
  · rename_i hone
    obtain ⟨default, hdefault⟩ := List.length_eq_one_iff.mp hone
    rw [hdefault]
    rfl
  · rename_i hnot
    split
    · rename_i default hdefault
      rw [hdefault] at hnot
      exact absurd rfl hnot
    · rfl

theorem arrayCreationSeed_eq (applicable : List LocatedSchema) :
    Compiled.arrayCreationSeed applicable =
      Engine.arrayCreationSeed (dataSchemaAnnotations digest applicable) := by
  have htest (a b : Value) (h : jsonValuesEqual a b = true) : a.isArray = b.isArray :=
    isArray_congr h
  rw [Compiled.arrayCreationSeed, eligibleDefault_of_perm (eligible_perm digest htest applicable)]
  unfold Engine.arrayCreationSeed
  split
  · rename_i hone
    obtain ⟨default, hdefault⟩ := List.length_eq_one_iff.mp hone
    rw [hdefault]
    rfl
  · rename_i hnot
    split
    · rename_i default hdefault
      rw [hdefault] at hnot
      exact absurd rfl hnot
    · rfl

/-! ## States -/

namespace Compiled.ProjectionState

def plain (projection : ProjectionState) : Projection where
  controls := projection.controls.map ControlDefinition.plain
  objects := projection.objects.map ObjectDefinition.plain
  arrays := projection.arrays.map ArrayDefinition.plain
  unsupportedRegions := projection.unsupportedRegions.map UnsupportedRegion.plain
  traversal := projection.traversal
  insideArrayTemplate := projection.insideArrayTemplate

variable (projection : ProjectionState)

@[simp] theorem plain_warn (binding : Pointer) (findings : List UnsupportedFinding) :
    (projection.warn binding findings).plain = projection.plain := rfl

@[simp] theorem plain_pushControl (control : ControlDefinition) :
    (projection.pushControl control).plain = projection.plain.pushControl control.plain := by
  simp [plain, pushControl, Projection.pushControl]

@[simp] theorem plain_pushObject (object : ObjectDefinition) :
    (projection.pushObject object).plain = projection.plain.pushObject object.plain := by
  simp [plain, pushObject, Projection.pushObject]

@[simp] theorem plain_pushArray (array : ArrayDefinition) :
    (projection.pushArray array).plain = projection.plain.pushArray array.plain := by
  simp [plain, pushArray, Projection.pushArray]

@[simp] theorem plain_pushUnsupported (region : UnsupportedRegion) :
    (projection.pushUnsupported region).plain = projection.plain.pushUnsupported region.plain := by
  simp [plain, pushUnsupported, Projection.pushUnsupported]

end Compiled.ProjectionState

/-! ## Expansions -/

section Expansions

variable {compiler : GraphReader}

/-- What an expansion in the middle of a compilation finds, it finds on its own. -/
theorem expansion_alone {schemas : List ApplicableSchema} {activeLocations : List SchemaIdentity}
    {usedResources : List String} {traversal : ProjectionTraversal} {expansion : SchemaExpansion}
    (hmaximum : traversal.maximum = compiler.maxTraversal)
    (h : expandReferences compiler.graph schemas activeLocations usedResources traversal =
      .ok expansion) :
    ∃ usedResources visits, compiler.expansion schemas activeLocations =
        .ok ⟨expansion.schemas, expansion.recursiveFindings, usedResources,
          ⟨compiler.maxTraversal, visits⟩⟩ ∧
      traversal.visitTimes visits = .ok expansion.traversal := by
  have hricher : Richer traversal ⟨compiler.maxTraversal, 0⟩ :=
    ⟨hmaximum.le, by show traversal.maximum + 0 ≤ compiler.maxTraversal + _; omega⟩
  have hkept : KeptByUse fun _ _ => True := fun _ _ _ _ => trivial
  have hused : (fun _ _ => True : List String → List String → Prop) usedResources [] := trivial
  obtain ⟨usedAfter, after, halone, ⟨visits, htraversal, rfl⟩, -⟩ :=
    expandReferences_level hricher hkept (level_start _ _) hused h
  obtain ⟨⟨visits', hspent⟩, -⟩ := expandReferences_spends h
  refine ⟨usedAfter, visits, ?_, ?_⟩
  · rw [GraphReader.expansion, halone]
    show Except.ok (⟨_, _, _, ⟨compiler.maxTraversal, 0 + visits⟩⟩ : SchemaExpansion) = _
    rw [Nat.zero_add]
  · obtain ⟨hless, heq⟩ := visitTimes_ok.mp hspent
    rw [htraversal, ProjectionTraversal.mk.injEq] at heq
    obtain rfl : visits = visits' := by omega
    exact hspent

theorem projected_alone {projection projection' : ProjectionState}
    {schemas : List ApplicableSchema} {activeLocations : List SchemaIdentity}
    {expansion : SchemaExpansion} {projected : ProjectedSchemas}
    (hmaximum : projection.traversal.maximum = compiler.maxTraversal)
    (wf : ∀ located ∈ schemas, located.schema.WF)
    (h : projection.expand compiler.graph schemas activeLocations = .ok (projection', expansion))
    (hprojected : projectedSchemas compiler.graph compiler.fuel expansion = .ok projected) :
    ∃ visits hwf, compiler.projected schemas activeLocations wf =
        .ok (visits, ⟨projected, hwf⟩) ∧
      projection.traversal.visitTimes visits = .ok projection'.traversal ∧
      projection' = { projection with
        usedResources := projection'.usedResources
        traversal := projection'.traversal } := by
  obtain ⟨found, hfound, h⟩ := bind_eq_ok.mp h
  cases h
  obtain ⟨usedResources, visits, halone, hspent⟩ := expansion_alone hmaximum hfound
  have hexpandedwf := GraphReader.expansion_wf wf _ halone
  have hwf : ∀ located ∈ projected.schemas, located.schema.WF :=
    projectedSchemas_schemas hprojected ▸ hexpandedwf
  refine ⟨visits, hwf, ?_, hspent, rfl⟩
  exact bind_eq_ok.mpr ⟨⟨_, hexpandedwf⟩, certified_eq_ok.mpr halone,
    bind_eq_ok.mpr ⟨⟨projected, hwf⟩, certified_eq_ok.mpr hprojected, rfl⟩⟩

end Expansions

/-! ## Templates -/

section Walks

variable {compiler : GraphReader} {walk : Compiled.Walk}
  {walk' : SchemaReader.Walk ObjectSchemas}

variable (compiler) in
def WalkRefines (walk : Compiled.Walk) (walk' : SchemaReader.Walk ObjectSchemas) : Prop :=
  ∀ object parentBinding projection projection',
    walk object.schemas parentBinding object.activeLocations projection = .ok projection' →
    projection.traversal.maximum = compiler.maxTraversal →
    walk' object parentBinding projection.plain = .ok projection'.plain ∧
      projection'.traversal.maximum = compiler.maxTraversal

/-- Nothing is projected beside what is returned. -/
structure Sidelong (projection projection' : ProjectionState) : Prop where
  plain : projection'.plain = { projection.plain with traversal := projection'.traversal }
  maximum : projection'.traversal.maximum = projection.traversal.maximum

theorem choicesControl_plain (binding : Pointer) (parentBinding : Option Pointer)
    (choices : AnnotatedChoices) (annotations : DataSchemaAnnotations) (seed : Option Value)
    (required : Bool) : choicesControl binding parentBinding choices.plain annotations seed required =
      ⟨binding, parentBinding, choices.controlKind, choices.values.map (·.value),
        choices.values.any (·.value.isNull), annotations, seed, required⟩ := by
  have hnull : choices.plain.values.any Value.isNull = choices.values.any (·.value.isNull) := by
    simp [AnnotatedChoices.plain, List.any_map, Function.comp_def]
  rw [choicesControl, hnull]
  rfl

theorem controlKind_scalarKind {kind : ProjectedKind} {scalar : ScalarKind}
    (h : kind.scalarKind = some scalar) : kind.controlKind = some scalar.controlKind := by
  cases kind with
  | null | object | array => cases h
  | _ => cases h; rfl

theorem controlKind_none {kind : ProjectedKind} (h : kind.scalarKind = none) :
    kind.controlKind = none := by
  cases kind with
  | null | object | array => rfl
  | _ => cases h

theorem scalarItemTemplate_refines {label : String} {items : List LocatedSchema}
    {kind : ControlKind} {choices : List CompiledChoice} {acceptsNull : Bool}
    {template : Compiled.ArrayItemTemplate}
    (h : scalarItemTemplate compiler.digest label items kind choices acceptsNull = .ok template) :
    scalarTemplate ⟨[], none, kind, choices.map (·.value), acceptsNull,
        dataSchemaAnnotations compiler.digest items,
        arrayItemCreationSeed kind (choices.map (·.value)) acceptsNull
          (dataSchemaAnnotations compiler.digest items), true⟩ = .ok template.plain := by
  unfold scalarItemTemplate at h
  dsimp only at h
  have hannotations : (nodePresentation compiler.digest items (label ++ " item")).1.annotations =
      dataSchemaAnnotations compiler.digest items := rfl
  rw [hannotations] at h
  unfold scalarTemplate
  dsimp only
  split at h
  · cases h
  · rename_i seed hseed
    cases h
    rw [hseed]
    rfl

theorem scalarShape_refines {label : String} {projected : ProjectedSchemas}
    {kind : ControlKind} {choices : List CompiledChoice} {acceptsNull : Bool}
    {template : Compiled.ArrayItemTemplate}
    (hitem : scalarItem projected = some (kind, choices, acceptsNull))
    (h : scalarItemTemplate compiler.digest label (plainSchemas projected.schemas) kind choices
      acceptsNull = .ok template) (traversal : ProjectionTraversal) :
    SchemaReader.compileItemTemplate walk' ⟨compiler.annotations projected,
        GraphReader.scalarShape projected⟩ traversal = .ok (traversal, some template.plain) := by
  have htemplate := scalarItemTemplate_refines h
  unfold scalarItem at hitem
  unfold GraphReader.scalarShape
  cases hchoices : projected.choices with
  | some annotated =>
    rw [hchoices] at hitem
    cases hitem
    refine bind_eq_ok.mpr ⟨template.plain, ?_, rfl⟩
    have hnull : annotated.plain.values.any Value.isNull =
        annotated.values.any (·.value.isNull) := by
      simp [AnnotatedChoices.plain, List.any_map, Function.comp_def]
    rw [choicesControl_plain, hnull]
    exact htemplate
  | none =>
    rw [hchoices] at hitem
    obtain ⟨control, hcontrol, heq⟩ := Option.map_eq_some_iff.mp hitem
    cases heq
    obtain ⟨kind, hkind, hcontrol⟩ := Option.bind_eq_some_iff.mp hcontrol
    cases hscalar : kind.scalarKind with
    | none =>
      rw [controlKind_none hscalar] at hcontrol
      cases hcontrol
    | some scalar =>
      rw [controlKind_scalarKind hscalar] at hcontrol
      cases hcontrol
      rw [hkind, Option.bind_some, hscalar]
      exact bind_eq_ok.mpr ⟨template.plain, htemplate, rfl⟩

theorem scalarShape_unsupported {projected : ProjectedSchemas} (h : scalarItem projected = none) :
    GraphReader.scalarShape projected = .unsupported := by
  unfold scalarItem at h
  unfold GraphReader.scalarShape
  cases hchoices : projected.choices with
  | some choices =>
    rw [hchoices] at h
    cases h
  | none =>
    rw [hchoices] at h
    have hkind := Option.map_eq_none_iff.mp h
    cases hscalar : projected.kind.bind ProjectedKind.scalarKind with
    | none => rfl
    | some scalar =>
      obtain ⟨kind, hsome, hscalar⟩ := Option.bind_eq_some_iff.mp hscalar
      rw [hsome, Option.bind_some, controlKind_scalarKind hscalar] at hkind
      cases hkind

theorem compileScalarTemplate_refines {label : String} {projected : ProjectedSchemas}
    {result : ItemsResult}
    (h : compileScalarTemplate compiler.digest label projected = .ok result)
    (traversal : ProjectionTraversal) :
    SchemaReader.compileItemTemplate walk' ⟨compiler.annotations projected,
        if projected.findings.isEmpty then GraphReader.scalarShape projected
        else .unsupported⟩ traversal =
      .ok (traversal, result.toOption.map Compiled.ArrayItemTemplate.plain) := by
  unfold compileScalarTemplate at h
  by_cases hfindings : projected.findings.isEmpty = true
  · rw [if_pos hfindings] at h ⊢
    cases hitem : scalarItem projected with
    | none =>
      rw [hitem] at h
      dsimp only at h
      obtain ⟨finding, -, rfl⟩ := map_eq_ok.mp h
      rw [scalarShape_unsupported hitem]
      rfl
    | some item =>
      obtain ⟨kind, choices, acceptsNull⟩ := item
      rw [hitem] at h
      dsimp only at h
      rw [if_pos hfindings] at h
      obtain ⟨template, htemplate, rfl⟩ := map_eq_ok.mp h
      exact scalarShape_refines hitem htemplate traversal
  · rw [if_neg hfindings]
    have hresult : result = .error projected.findings := by
      split at h
      · rw [if_neg hfindings] at h
        exact (Except.ok.inj h).symm
      · rw [if_neg hfindings] at h
        exact (Except.ok.inj h).symm
    rw [hresult]
    rfl

theorem Sidelong.refl (projection : ProjectionState) : Sidelong projection projection :=
  ⟨rfl, rfl⟩

theorem compileObjectTemplate_refines (hwalk : WalkRefines compiler walk walk') {binding : Pointer}
    {label : String} {activeLocations : List SchemaIdentity} {projected : ProjectedSchemas}
    (wf : ∀ located ∈ projected.schemas, located.schema.WF)
    {projection projection' : ProjectionState} {result : ItemsResult}
    (hmaximum : projection.traversal.maximum = compiler.maxTraversal)
    (h : compileObjectTemplate compiler.digest walk binding label activeLocations projected
      projection = .ok (projection', result)) :
    SchemaReader.compileItemTemplate walk' ⟨compiler.annotations projected,
        .object (GraphReader.objectSchemas projected activeLocations wf)⟩ projection.traversal =
      .ok (projection'.traversal, result.toOption.map Compiled.ArrayItemTemplate.plain) ∧
    Sidelong projection projection' := by
  obtain ⟨template, htemplate, h⟩ := bind_eq_ok.mp h
  obtain ⟨hrefines, hwalked⟩ := hwalk (GraphReader.objectSchemas projected activeLocations wf)
    (some []) _ template htemplate hmaximum
  have hobject : walk' (GraphReader.objectSchemas projected activeLocations wf) (some [])
      ⟨[], [⟨[], none, compiler.annotations projected, true,
        Engine.objectCreationSeed (compiler.annotations projected)⟩], [], [],
        projection.traversal, true⟩ = .ok template.plain := by
    rw [← hrefines, GraphReader.annotations, ← objectCreationSeed_eq]
    rfl
  have hempty : template.plain.unsupportedRegions.isEmpty = template.unsupportedRegions.isEmpty := by
    show (template.unsupportedRegions.map UnsupportedRegion.plain).isEmpty = _
    cases template.unsupportedRegions <;> rfl
  simp only [SchemaReader.compileItemTemplate, hobject]
  show (if template.plain.unsupportedRegions.isEmpty then _ else _) = _ ∧ _
  rw [hempty]
  dsimp only at h
  by_cases hregions : template.unsupportedRegions.isEmpty = true
  · rw [if_pos hregions] at h ⊢
    cases h
    refine ⟨?_, rfl, hwalked.trans hmaximum.symm⟩
    rw [GraphReader.annotations, ← objectCreationSeed_eq]
    rfl
  · rw [if_neg hregions] at h ⊢
    cases h
    exact ⟨rfl, rfl, hwalked.trans hmaximum.symm⟩

theorem compileItemTemplate_refines (hwalk : WalkRefines compiler walk walk') {binding : Pointer}
    {label : String} {activeLocations : List SchemaIdentity} {projected : ProjectedSchemas}
    (wf : ∀ located ∈ projected.schemas, located.schema.WF)
    {projection projection' : ProjectionState} {result : ItemsResult}
    (hmaximum : projection.traversal.maximum = compiler.maxTraversal)
    (h : Compiled.compileItemTemplate compiler.digest walk binding label activeLocations projected
      projection = .ok (projection', result)) :
    SchemaReader.compileItemTemplate walk' ⟨compiler.annotations projected,
        GraphReader.itemShape projected activeLocations wf⟩ projection.traversal =
      .ok (projection'.traversal, result.toOption.map Compiled.ArrayItemTemplate.plain) ∧
    Sidelong projection projection' := by
  unfold Compiled.compileItemTemplate at h
  unfold GraphReader.itemShape
  by_cases hobject : projected.kind = some .object
  · rw [if_pos hobject] at h
    by_cases hfindings : projected.findings.isEmpty = true
    · rw [if_pos hfindings] at h
      rw [if_pos hfindings, if_pos hobject]
      exact compileObjectTemplate_refines hwalk wf hmaximum h
    · rw [if_neg hfindings] at h
      cases h
      rw [if_neg hfindings]
      exact ⟨rfl, .refl projection⟩
  · rw [if_neg hobject] at h
    obtain ⟨result, hscalar, heq⟩ := map_eq_ok.mp h
    cases heq
    rw [if_neg hobject]
    exact ⟨compileScalarTemplate_refines hscalar projection.traversal, .refl projection⟩

/-! ## Arrays -/

theorem compileHomogeneousArray_refines (hwalk : WalkRefines compiler walk walk')
    {projected : ProjectedSchemas} (wf : ∀ located ∈ projected.schemas, located.schema.WF)
    {place : Place} (hplace : place.presentation.annotations = compiler.annotations projected)
    {activeLocations : List SchemaIdentity} {projection projection' : ProjectionState}
    {result : Except (List UnsupportedFinding) Compiled.ArrayDefinition}
    (hmaximum : projection.traversal.maximum = compiler.maxTraversal)
    (h : Compiled.compileHomogeneousArray compiler.digest compiler.usizeMax compiler.graph
      compiler.fuel walk projected.schemas place activeLocations projection =
        .ok (projection', result)) :
    SchemaReader.compileHomogeneousArray walk' place.binding place.parentBinding
        place.presentation.annotations place.required (compiler.array projected activeLocations wf)
        projection.traversal =
      .ok (projection'.traversal, result.toOption.map Compiled.ArrayDefinition.plain) ∧
    Sidelong projection projection' := by
  obtain ⟨items, hitems, h⟩ := bind_eq_ok.mp h
  have hitemswf := itemSchemas_inherits (inherits_wf compiler.wf) wf hitems
  unfold SchemaReader.compileHomogeneousArray
  have hread : (compiler.array projected activeLocations wf).items =
      compiler.items projected.schemas activeLocations wf := rfl
  rw [hread]
  by_cases hempty : items.isEmpty = true
  · rw [if_pos hempty] at h
    obtain ⟨finding, -, h⟩ := bind_eq_ok.mp h
    cases h
    refine ⟨?_, .refl projection⟩
    refine bind_eq_ok.mpr ⟨(0, ⟨dataSchemaAnnotations compiler.digest [], .unsupported⟩), ?_, rfl⟩
    exact bind_eq_ok.mpr ⟨⟨items, hitemswf⟩, certified_eq_ok.mpr hitems, if_pos hempty⟩
  · rw [if_neg hempty] at h
    obtain ⟨⟨projection₁, expansion⟩, hexpand, h⟩ := bind_eq_ok.mp h
    obtain ⟨found, hfound, h⟩ := bind_eq_ok.mp h
    obtain ⟨⟨projection₂, template⟩, htemplate, h⟩ := bind_eq_ok.mp h
    cases h
    obtain ⟨visits, hwf, halone, hspent, heq⟩ :=
      projected_alone (by exact hmaximum) hitemswf hexpand hfound
    have hmaximum₁ : projection₁.traversal.maximum = compiler.maxTraversal := by
      obtain ⟨-, htraversal⟩ := visitTimes_ok.mp hspent
      rw [htraversal]
      exact hmaximum
    obtain ⟨hrefines, hsidelong⟩ := compileItemTemplate_refines hwalk hwf hmaximum₁ htemplate
    constructor
    · refine bind_eq_ok.mpr ⟨(visits, ⟨compiler.annotations found,
        GraphReader.itemShape found activeLocations hwf⟩), ?_, ?_⟩
      · refine bind_eq_ok.mpr ⟨⟨items, hitemswf⟩, certified_eq_ok.mpr hitems, ?_⟩
        exact (if_neg hempty).trans (bind_eq_ok.mpr ⟨_, halone, rfl⟩)
      · refine bind_eq_ok.mpr ⟨_, hspent, bind_eq_ok.mpr ⟨_, hrefines, ?_⟩⟩
        rw [hplace, GraphReader.annotations, ← arrayCreationSeed_eq]
        cases template with
        | error findings => rfl
        | ok template =>
          simp only [Except.map, Except.toOption, Option.map_some]
          rw [Compiled.ArrayDefinition.plain, hplace]
          rfl
    · refine ⟨?_, hsidelong.maximum.trans (hmaximum₁.trans hmaximum.symm)⟩
      rw [hsidelong.plain, heq]
      rfl

/-! ## Properties -/

theorem plain_unsupported (place : Place) (findings : List UnsupportedFinding) :
    (place.unsupported findings).plain = ⟨place.binding, place.parentBinding,
      place.presentation.annotations, place.required⟩ := rfl

theorem plain_object (place : Place) (creationSeed : Value) :
    (place.object creationSeed).plain = ⟨place.binding, place.parentBinding,
      place.presentation.annotations, place.required, creationSeed⟩ := rfl

theorem plain_control (place : Place) (kind : ControlKind) (choices : List CompiledChoice)
    (acceptsNull : Bool) (creationSeed : Option Value) :
    (place.control kind choices acceptsNull creationSeed).plain =
      ⟨place.binding, place.parentBinding, kind, choices.map (·.value), acceptsNull,
        place.presentation.annotations, creationSeed, place.required⟩ := rfl

/-- The last step of the abstract projection, on the shape that was read at a place. -/
def projectShape {σ : Type} (walk : SchemaReader.Walk σ) (place : Engine.UnsupportedRegion)
    (shape : PropertyShape σ) (projection : Projection) : Except CompileError Projection :=
  match shape with
  | .unsupported => .ok (projection.pushUnsupported place)
  | .choices choices => .ok (projection.pushControl (choicesControl place.binding
      place.parentBinding choices place.annotations
      (scalarCreationSeed choices.controlKind choices.values place.annotations) place.required))
  | .scalar kind acceptsNull => .ok (projection.pushControl (scalarControl place.binding
      place.parentBinding kind acceptsNull place.annotations
      (scalarCreationSeed kind.controlKind [] place.annotations) place.required))
  | .object schemas => walk schemas (some place.binding) (projection.pushObject
      ⟨place.binding, place.parentBinding, place.annotations, place.required,
        Engine.objectCreationSeed place.annotations⟩)
  | .array shape =>
    if projection.insideArrayTemplate then .ok (projection.pushUnsupported place)
    else do
      let found ← SchemaReader.compileHomogeneousArray walk place.binding place.parentBinding
        place.annotations place.required shape projection.traversal
      match found.2 with
      | some array => .ok ({ projection with traversal := found.1 }.pushArray array)
      | none => .ok ({ projection with traversal := found.1 }.pushUnsupported place)

theorem compileProperty_eq {σ : Type} {reader : SchemaReader σ} {walk : SchemaReader.Walk σ}
    {applicable : σ} {parentBinding : Option Pointer} {projection : Projection} {name : String}
    {between after : ProjectionTraversal} {visits : Nat} {property : Property σ}
    (hvisit : projection.traversal.visit = .ok between)
    (hread : reader.property applicable name = .ok (visits, property))
    (hspent : between.visitTimes visits = .ok after) :
    reader.compileProperty walk applicable parentBinding projection name =
      projectShape walk ⟨parentBinding.getD [] ++ [name], parentBinding, property.annotations,
        property.required⟩ property.shape { projection with traversal := after } := by
  unfold SchemaReader.compileProperty projectShape
  simp only [hvisit, hread, hspent, bind, Except.bind]
  cases property.shape with
  | array shape =>
    simp only []
    split
    · rfl
    · cases SchemaReader.compileHomogeneousArray walk (parentBinding.getD [] ++ [name])
        parentBinding property.annotations property.required shape after with
      | error e => rfl
      | ok found => rfl
  | _ => rfl

/-- An array is recorded, or a region with what is found against it. -/
theorem arrayShape_refines (hwalk : WalkRefines compiler walk walk')
    {projected : ProjectedSchemas} (wf : ∀ located ∈ projected.schemas, located.schema.WF)
    {place : Place} (hplace : place.presentation.annotations = compiler.annotations projected)
    {activeLocations : List SchemaIdentity} {projection projection' : ProjectionState}
    (hmaximum : projection.traversal.maximum = compiler.maxTraversal)
    (hchoices : projected.choices = none) (hkind : projected.kind = some .array)
    (h : compileShape compiler.digest compiler.usizeMax compiler.graph compiler.fuel walk place
      activeLocations projected projection = .ok projection') :
    projectShape walk' ⟨place.binding, place.parentBinding, place.presentation.annotations,
        place.required⟩ (.array (compiler.array projected activeLocations wf)) projection.plain =
      .ok projection'.plain ∧ projection'.traversal.maximum = compiler.maxTraversal := by
  unfold compileShape at h
  rw [hchoices, hkind] at h
  dsimp only at h
  unfold projectShape
  have hinside : projection.plain.insideArrayTemplate = projection.insideArrayTemplate := rfl
  dsimp only
  rw [hinside]
  by_cases hnested : projection.insideArrayTemplate = true
  · rw [if_pos hnested] at h ⊢
    obtain ⟨origin, -, h⟩ := bind_eq_ok.mp h
    cases h
    rw [ProjectionState.plain_pushUnsupported]
    exact ⟨rfl, hmaximum⟩
  · rw [if_neg hnested] at h ⊢
    obtain ⟨⟨projection₁, array⟩, harray, h⟩ := bind_eq_ok.mp h
    obtain ⟨hrefines, hsidelong⟩ :=
      compileHomogeneousArray_refines hwalk wf hplace hmaximum harray
    have hmaximum₁ := hsidelong.maximum.trans hmaximum
    have hrefines : SchemaReader.compileHomogeneousArray walk' place.binding place.parentBinding
        place.presentation.annotations place.required (compiler.array projected activeLocations wf)
        projection.plain.traversal = _ := hrefines
    cases array with
    | ok array =>
      cases h
      refine ⟨bind_eq_ok.mpr ⟨_, hrefines, ?_⟩, hmaximum₁⟩
      rw [ProjectionState.plain_pushArray, hsidelong.plain]
      rfl
    | error findings =>
      cases h
      refine ⟨bind_eq_ok.mpr ⟨_, hrefines, ?_⟩, hmaximum₁⟩
      rw [ProjectionState.plain_pushUnsupported, hsidelong.plain]
      rfl

theorem compileShape_refines (hwalk : WalkRefines compiler walk walk')
    {projected : ProjectedSchemas} (wf : ∀ located ∈ projected.schemas, located.schema.WF)
    {place : Place} (hplace : place.presentation.annotations = compiler.annotations projected)
    {activeLocations : List SchemaIdentity} {projection projection' : ProjectionState}
    (hmaximum : projection.traversal.maximum = compiler.maxTraversal)
    (h : compileShape compiler.digest compiler.usizeMax compiler.graph compiler.fuel walk place
      activeLocations projected projection = .ok projection') :
    projectShape walk' ⟨place.binding, place.parentBinding, place.presentation.annotations,
        place.required⟩ (compiler.propertyShape projected activeLocations wf) projection.plain =
      .ok projection'.plain ∧ projection'.traversal.maximum = compiler.maxTraversal := by
  cases hchoices : projected.choices with
  | some choices =>
    unfold compileShape at h
    rw [hchoices] at h
    cases h
    rw [GraphReader.propertyShape, hchoices, ProjectionState.plain_pushControl, plain_control]
    refine ⟨?_, hmaximum⟩
    show Except.ok (projection.plain.pushControl (choicesControl _ _ _ _ _ _)) = _
    rw [choicesControl_plain]
    rfl
  | none =>
    cases hkind : projected.kind with
    | none =>
      unfold compileShape at h
      rw [hchoices, hkind] at h
      obtain ⟨origin, -, h⟩ := bind_eq_ok.mp h
      cases h
      rw [GraphReader.propertyShape, hchoices, hkind, ProjectionState.plain_pushUnsupported]
      exact ⟨rfl, hmaximum⟩
    | some kind =>
      cases kind with
      | array =>
        have hshape : compiler.propertyShape projected activeLocations wf =
            .array (compiler.array projected activeLocations wf) := by
          rw [GraphReader.propertyShape, hchoices, hkind]
        rw [hshape]
        exact arrayShape_refines hwalk wf hplace hmaximum hchoices hkind h
      | object =>
        unfold compileShape at h
        rw [hchoices, hkind] at h
        obtain ⟨hrefines, hwalked⟩ := hwalk (GraphReader.objectSchemas projected activeLocations wf)
          (some place.binding) _ projection' h hmaximum
        rw [GraphReader.propertyShape, hchoices, hkind]
        refine ⟨?_, hwalked⟩
        rw [← hrefines, ProjectionState.plain_pushObject, ProjectionState.plain_warn, plain_object,
          objectCreationSeed_eq compiler.digest, hplace]
        rfl
      | null =>
        unfold compileShape at h
        rw [hchoices, hkind] at h
        cases h
      | _ =>
        unfold compileShape at h
        rw [hchoices, hkind] at h
        cases h
        rw [GraphReader.propertyShape, hchoices, hkind, ProjectionState.plain_pushControl]
        exact ⟨rfl, hmaximum⟩

/-- A property is projected as its shape says. -/
theorem compileProperty_refines (hwalk : WalkRefines compiler walk walk') {location : GraphLocation}
    (hroot : location.schema.WF) {object : ObjectSchemas} {parentBinding : Option Pointer}
    {projection projection' : ProjectionState} {name : String}
    (hmaximum : projection.traversal.maximum = compiler.maxTraversal)
    (h : Compiled.compileProperty compiler.digest compiler.usizeMax compiler.graph compiler.fuel
      walk object.schemas parentBinding object.activeLocations projection name = .ok projection') :
    (compiler.reader location hroot).compileProperty walk' object parentBinding projection.plain
        name = .ok projection'.plain ∧
      projection'.traversal.maximum = compiler.maxTraversal := by
  obtain ⟨between, hvisit, h⟩ := bind_eq_ok.mp h
  obtain ⟨children, hchildren, h⟩ := bind_eq_ok.mp h
  obtain ⟨⟨projection₁, expansion⟩, hexpand, h⟩ := bind_eq_ok.mp h
  obtain ⟨projected, hprojected, h⟩ := bind_eq_ok.mp h
  have hchildrenwf := childSchemas_inherits (inherits_wf compiler.wf) object.wf hchildren
  have hbetween : between.maximum = compiler.maxTraversal := by
    obtain ⟨-, rfl⟩ := visit_ok.mp hvisit
    exact hmaximum
  obtain ⟨visits, hwf, halone, hspent, heq⟩ :=
    projected_alone (by exact hbetween) hchildrenwf hexpand hprojected
  have hspent : between.visitTimes visits = .ok projection₁.traversal := hspent
  have hmaximum₁ : projection₁.traversal.maximum = compiler.maxTraversal := by
    obtain ⟨-, htraversal⟩ := visitTimes_ok.mp hspent
    rw [htraversal]
    exact hbetween
  have hplain : projection₁.plain = { projection.plain with traversal := projection₁.traversal } := by
    rw [heq]
    rfl
  have hread : (compiler.reader location hroot).property object name = .ok (visits, {
      annotations := compiler.annotations projected
      required := isRequired object.schemas name
      shape := if (projected.findings ++ projected.kindConflictFindings).isEmpty then
        compiler.propertyShape projected object.activeLocations hwf else .unsupported }) :=
    bind_eq_ok.mpr ⟨⟨children, hchildrenwf⟩, certified_eq_ok.mpr hchildren,
      bind_eq_ok.mpr ⟨_, halone, rfl⟩⟩
  have hannotations : dataSchemaAnnotations compiler.digest (plainSchemas expansion.schemas) =
      compiler.annotations projected := by
    rw [GraphReader.annotations, projectedSchemas_schemas hprojected]
  rw [compileProperty_eq (by exact hvisit) hread hspent]
  dsimp only at h ⊢
  rw [← hplain]
  by_cases hfindings : (projected.findings ++ projected.kindConflictFindings).isEmpty = true
  · rw [if_pos hfindings] at h ⊢
    rw [← hannotations]
    exact compileShape_refines hwalk hwf hannotations (by exact hmaximum₁) h
  · rw [if_neg hfindings] at h ⊢
    cases h
    refine ⟨?_, hmaximum₁⟩
    rw [ProjectionState.plain_pushUnsupported, plain_unsupported, ProjectionState.plain_warn,
      ← hannotations]
    rfl

theorem foldlM_compileProperty_refines (hwalk : WalkRefines compiler walk walk')
    {location : GraphLocation} (hroot : location.schema.WF) {object : ObjectSchemas}
    {parentBinding : Option Pointer} {names : List String} {projection projection' : ProjectionState}
    (hmaximum : projection.traversal.maximum = compiler.maxTraversal)
    (h : names.foldlM (Compiled.compileProperty compiler.digest compiler.usizeMax compiler.graph
      compiler.fuel walk object.schemas parentBinding object.activeLocations) projection =
        .ok projection') :
    names.foldlM ((compiler.reader location hroot).compileProperty walk' object parentBinding)
        projection.plain = .ok projection'.plain ∧
      projection'.traversal.maximum = compiler.maxTraversal := by
  induction names generalizing projection with
  | nil =>
    cases h
    exact ⟨rfl, hmaximum⟩
  | cons name names ih =>
    rw [List.foldlM_cons] at h ⊢
    obtain ⟨between, hfirst, h⟩ := bind_eq_ok.mp h
    obtain ⟨hrefines, hbetween⟩ := compileProperty_refines hwalk hroot hmaximum hfirst
    obtain ⟨hrest, hwalked⟩ := ih hbetween h
    exact ⟨bind_eq_ok.mpr ⟨_, hrefines, hrest⟩, hwalked⟩

/-- By induction on the depth. -/
theorem compileProperties_refines {location : GraphLocation} (hroot : location.schema.WF)
    (depth : Nat) : WalkRefines compiler
      (Compiled.compileProperties compiler.digest compiler.usizeMax compiler.graph compiler.fuel
        depth) ((compiler.reader location hroot).compileProperties depth) := by
  induction depth with
  | zero =>
    intro object parentBinding projection projection' h
    cases h
  | succ depth ih =>
    intro object parentBinding projection projection' h hmaximum
    rw [Compiled.compileProperties] at h
    rw [SchemaReader.compileProperties]
    have hnames : (compiler.reader location hroot).propertyNames object =
        Compiled.propertyNames object.schemas := rfl
    have hproperties : (compiler.reader location hroot).hasProperties object =
        Compiled.hasProperties object.schemas := rfl
    have hclosed : (compiler.reader location hroot).isExplicitlyClosedObject object =
        isExplicitlyClosedObject (plainSchemas object.schemas) := rfl
    rw [hnames, hproperties, hclosed]
    split
    · rename_i hnone
      rw [if_pos hnone] at h
      split
      · rename_i hclosed
        rw [if_pos hclosed] at h
        cases h
        exact ⟨rfl, hmaximum⟩
      · rename_i hopen
        rw [if_neg hopen] at h
        cases h
    · rename_i hsome
      rw [if_neg hsome] at h
      exact foldlM_compileProperty_refines ih hroot hmaximum h

end Walks

/-! ## Graphs -/

/-- A root that is not an object has a finding. -/
theorem rootFindings_ne_nil {graph : ResourceGraph} {fuel : Nat} {expansion : SchemaExpansion}
    {kind : Option ProjectedKind} {choices : Option AnnotatedChoices}
    {choiceFindings findings : List UnsupportedFinding} (hkind : kind ≠ some .object)
    (h : rootFindings graph fuel expansion kind choices choiceFindings = .ok findings) :
    findings ≠ [] := by
  obtain ⟨deferred, -, h⟩ := bind_eq_ok.mp h
  obtain ⟨shape, hshape, h⟩ := bind_eq_ok.mp h
  cases h
  rw [rootShapeFindings, if_neg hkind] at hshape
  cases choiceFindings with
  | nil =>
    obtain ⟨finding, -, rfl⟩ := map_eq_ok.mp hshape
    simp
  | cons finding rest => simp

theorem rootProjection_plain (place : Place) (findings warnings : List UnsupportedFinding)
    (expansion : SchemaExpansion) : (rootProjection place findings warnings expansion).plain =
      ⟨[], [], [], if !findings.isEmpty then [⟨place.binding, place.parentBinding,
        place.presentation.annotations, place.required⟩] else [], expansion.traversal, false⟩ := by
  cases findings <;> rfl

theorem rootRegions_isEmpty (place : Place) (findings warnings : List UnsupportedFinding)
    (expansion : SchemaExpansion) :
    (rootProjection place findings warnings expansion).unsupportedRegions.isEmpty =
      (if !findings.isEmpty then [(⟨place.binding, place.parentBinding,
        place.presentation.annotations, place.required⟩ : Engine.UnsupportedRegion)]
        else []).isEmpty := by
  cases findings <;> rfl

/-- The walk from the root, in the abstract projection. -/
theorem compileRoot_refines {compiler : GraphReader} {location : GraphLocation}
    (hroot : location.schema.WF) {object : ObjectSchemas}
    (hactive : object.activeLocations = object.schemas.map (·.identity))
    {place : Place} {findings warnings : List UnsupportedFinding} {expansion : SchemaExpansion}
    (hmaximum : expansion.traversal.maximum = compiler.maxTraversal)
    {projection : ProjectionState}
    (h : compileRoot compiler.digest compiler.usizeMax compiler.graph compiler.fuel
      compiler.maxTraversal object.schemas (some .object)
      (rootProjection place findings warnings expansion) = .ok projection) :
    (if (compiler.reader location hroot).hasProperties object then
        (compiler.reader location hroot).compileProperties (compiler.maxTraversal + 1) object none
          (rootProjection place findings warnings expansion).plain
      else if (rootProjection place findings warnings expansion).unsupportedRegions.isEmpty &&
          !(compiler.reader location hroot).isExplicitlyClosedObject object then
        .error .missingProperties
      else .ok (rootProjection place findings warnings expansion).plain) =
        .ok projection.plain := by
  unfold compileRoot at h
  rw [if_neg (by simp)] at h
  have hproperties : (compiler.reader location hroot).hasProperties object =
      Compiled.hasProperties object.schemas := rfl
  have hclosed : (compiler.reader location hroot).isExplicitlyClosedObject object =
      isExplicitlyClosedObject (plainSchemas object.schemas) := rfl
  rw [hproperties, hclosed]
  split
  · rename_i hsome
    rw [if_pos hsome, ← hactive] at h
    exact (compileProperties_refines hroot (compiler.maxTraversal + 1) object none _ projection h
      hmaximum).1
  · rename_i hnone
    rw [if_neg hnone] at h
    split
    · rename_i hmissing
      rw [if_pos hmissing] at h
      cases h
    · rename_i hfound
      rw [if_neg hfound] at h
      cases h
      rfl

theorem compileGraph_refines {compiler : GraphReader} {location : GraphLocation}
    (hroot : location.schema.WF) {definition : Compiled.FormDefinition}
    (h : Compiled.compileGraph compiler.digest compiler.usizeMax compiler.graph compiler.fuel
      location compiler.maxTraversal = .ok definition) :
    (compiler.reader location hroot).compileGraph compiler.maxTraversal = .ok definition.plain := by
  obtain ⟨⟨used, validated⟩, -, h⟩ := bind_eq_ok.mp h
  obtain ⟨expansion, hexpansion, h⟩ := bind_eq_ok.mp h
  obtain ⟨⟨choices, choiceFindings⟩, hchoices, h⟩ := bind_eq_ok.mp h
  obtain ⟨findings, hfindings, h⟩ := bind_eq_ok.mp h
  obtain ⟨projection, hprojection, h⟩ := bind_eq_ok.mp h
  cases h
  obtain ⟨usedResources, visits, halone, hspent⟩ := expansion_alone (by exact rfl) hexpansion
  have hmaximum : expansion.traversal.maximum = compiler.maxTraversal := by
    rw [(visitTimes_ok.mp hspent).2]
  have hone : ∀ located ∈ [locatedFromGraph location], located.schema.WF := by
    intro located hl
    rw [List.mem_singleton.mp hl]
    exact hroot
  have hwf := GraphReader.expansion_wf hone _ halone
  refine bind_eq_ok.mpr ⟨(visits, {
      annotations := dataSchemaAnnotations compiler.digest (plainSchemas expansion.schemas)
      object := if inferKind (plainSchemas expansion.schemas) = some .object then
        some ⟨expansion.schemas, expansion.schemas.map (·.identity), hwf⟩ else none
      findings := !findings.isEmpty }), ?_, bind_eq_ok.mpr ⟨_, hspent, ?_⟩⟩
  · exact bind_eq_ok.mpr ⟨⟨_, hwf⟩, certified_eq_ok.mpr halone, bind_eq_ok.mpr ⟨_, hchoices,
      bind_eq_ok.mpr ⟨findings, hfindings, rfl⟩⟩⟩
  · by_cases hkind : inferKind (plainSchemas expansion.schemas) = some .object
    · rw [hkind] at hprojection
      have hactive : (ObjectSchemas.mk expansion.schemas (expansion.schemas.map (·.identity))
          hwf).activeLocations = expansion.schemas.map (·.identity) := rfl
      have hwalk := compileRoot_refines hroot hactive hmaximum hprojection
      rw [rootProjection_plain, rootRegions_isEmpty] at hwalk
      rw [if_pos hkind]
      dsimp only at hwalk ⊢
      generalize (if (!findings.isEmpty) = true then [(⟨[], none,
        dataSchemaAnnotations compiler.digest (plainSchemas expansion.schemas), true⟩ :
          Engine.UnsupportedRegion)] else []) = regions at hwalk ⊢
      split
      · rename_i hsome
        rw [if_pos hsome] at hwalk
        exact bind_eq_ok.mpr ⟨projection.plain, hwalk, rfl⟩
      · rename_i hnone
        rw [if_neg hnone] at hwalk
        split
        · rename_i hmissing
          rw [if_pos hmissing] at hwalk
          cases hwalk
        · rename_i hfound
          rw [if_neg hfound] at hwalk
          have hplain := Except.ok.inj hwalk
          refine congrArg Except.ok ?_
          show (⟨[], [], [], regions, _⟩ : Engine.FormDefinition) = ⟨projection.plain.controls,
            projection.plain.objects, projection.plain.arrays, projection.plain.unsupportedRegions, _⟩
          rw [← hplain]
    · unfold compileRoot at hprojection
      rw [if_pos hkind] at hprojection
      cases hprojection
      rw [if_neg hkind]
      have hsome : findings.isEmpty = false := by
        cases findings with
        | nil => exact absurd rfl (rootFindings_ne_nil hkind hfindings)
        | cons finding rest => rfl
      simp only [Compiled.FormDefinition.plain, rootProjection, hsome]
      rfl

end Schemaform.Engine
