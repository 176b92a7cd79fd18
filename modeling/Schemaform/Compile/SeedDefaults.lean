import Schemaform.Compile.WellFormed

/-!
# Compile.SeedDefaults

What seeding adds to the data of a compiled definition.

* `Seeded`: a place whose schemas declare one default, absent below a present object.
* `seed_defaults_exact`: those members and no others, in whatever order, and once.
* `namesReader`: an array of objects whose name has a default.
-/

namespace Schemaform.Engine

/-- A member to add, by the schemas that apply at its place. -/
structure Seeded (digest : List UInt8 → Nat) (definition : FormDefinition) (formData : Value)
    (binding : Pointer) (default : Value) : Prop where
  place : ∃ applicable, OneDefault applicable default ∧
    definition.SeedPlace formData binding (dataSchemaAnnotations digest applicable)
  parent : bindingParentIsObject binding formData = true
  absent : Pointer.resolve binding formData = none

section Seeded

variable {digest : List UInt8 → Nat} {definition : FormDefinition} {formData : Value}
  {binding : Pointer} {default : Value}

theorem Seeded.target (h : Seeded digest definition formData binding default) :
    ∃ annotations, definition.SeedPlace formData binding annotations ∧
      SeedTarget.Seeds ⟨binding, annotations⟩ formData default := by
  obtain ⟨applicable, hone, hplace⟩ := h.place
  exact ⟨_, hplace, (defaults_eq_singleton digest).mpr hone, h.parent, h.absent⟩

theorem seeded_of_seeds (ha : ∀ binding annotations,
      definition.SeedPlace formData binding annotations →
    Annotated digest annotations) {t : SeedTarget}
    (hplace : definition.SeedPlace formData t.binding t.annotations)
    (hseeds : t.Seeds formData default) : Seeded digest definition formData t.binding default := by
  obtain ⟨applicable, -, hannotations⟩ := ha _ _ hplace
  refine ⟨⟨applicable, (defaults_eq_singleton digest).mp ?_, hannotations ▸ hplace⟩,
    hseeds.parent, hseeds.absent⟩
  rw [← hannotations]
  exact hseeds.declared

end Seeded

theorem seedPlace_annotated {σ : Type} {reader : SchemaReader σ} {digest : List UInt8 → Nat}
    (hreader : reader.Reads digest) {maxTraversal : Nat} {definition : FormDefinition}
    (h : reader.compileGraph maxTraversal = .ok definition) {formData : Value} :
    ∀ binding annotations, definition.SeedPlace formData binding annotations →
      Annotated digest annotations := by
  obtain ⟨hc, -, ha⟩ := SchemaReader.compileGraph_sound hreader h
  intro binding annotations hplace
  cases hplace with
  | control hmem => exact (hc _ hmem).annotated
  | multipleChoice hmem _ => exact (ha _ hmem).annotated
  | item hmem _ hcontrol => exact (ha _ hmem).template.annotated _ hcontrol

/-- For every definition that compiles and all data. -/
theorem seed_defaults_exact {σ : Type} (digest : List UInt8 → Nat) (reader : SchemaReader σ)
    (hreader : reader.Reads digest) (maxTraversal : Nat) {definition : FormDefinition}
    (h : reader.compileGraph maxTraversal = .ok definition) {formData : Value}
    (hwf : formData.WF) :
    (∀ p v, Pointer.resolve p formData = some v →
      ∃ w, Pointer.resolve p (definition.seedDefaults formData) = some w ∧ w.outline = v.outline) ∧
    (∀ binding default, Seeded digest definition formData binding default →
      Pointer.resolve binding (definition.seedDefaults formData) = some default) ∧
    (∀ p, Pointer.resolve p formData = none →
      (Pointer.resolve p (definition.seedDefaults formData)).isSome →
      ∃ binding default, Seeded digest definition formData binding default ∧
        p.startsWith binding = true) ∧
    (∀ steps : List SeedStep, steps.Perm definition.seedSteps →
      steps.foldl SeedStep.run formData = definition.seedDefaults formData) ∧
    definition.seedDefaults (definition.seedDefaults formData) =
      definition.seedDefaults formData := by
  have hd := SchemaReader.compileGraph_wellFormed hreader h
  have hscalar := SchemaReader.compileGraph_scalarItems hreader h
  have hsteps := hd.seedSteps hscalar
  have hapart := hd.seedSteps_apart
  have hseededWf := seedDefaults_wf hd hwf
  have hoverlay := foldl_overlay (SeedStep.flatMap_targets_apart hsteps hapart formData) formData
  rw [← SeedStep.foldl_run hsteps hapart, ← FormDefinition.seedDefaults_eq] at hoverlay
  -- a place below no seeded member shows what it did
  have hkept : ∀ p, (∀ binding default, Seeded digest definition formData binding default →
      p.startsWith binding = false) →
      Pointer.outline p (definition.seedDefaults formData) = Pointer.outline p formData := by
    intro p hp
    refine hoverlay.kept p fun t ht default hseeds => hp _ default ?_
    have hplace := (FormDefinition.mem_targets_iff hscalar).mp ⟨ht, hseeds⟩
    exact seeded_of_seeds (seedPlace_annotated hreader h) hplace.1 hseeds
  have hdefault : ∀ binding default, Seeded digest definition formData binding default →
      Pointer.resolve binding (definition.seedDefaults formData) = some default := by
    intro binding default hseeded
    obtain ⟨annotations, hplace, hseeds⟩ := hseeded.target
    have htarget := (FormDefinition.mem_targets_iff hscalar).mpr ⟨hplace, hseeds⟩
    have hannotated := seedPlace_annotated hreader h _ _ hplace
    have hdefaultWf : default.WF := hannotated.defaults_wf default
      (by rw [hseeds.declared]; exact List.mem_singleton_self _)
    exact hoverlay.resolve_seeded hseededWf htarget.1 hdefaultWf hseeds
  refine ⟨?_, hdefault, ?_, ?_, ?_⟩
  · intro p v hv
    have hsame := hkept p fun binding default hseeded => by
      refine Bool.eq_false_iff.mpr fun hstarts => ?_
      obtain ⟨r, rfl⟩ := Pointer.startsWith_iff.mp hstarts
      rw [Pointer.resolve_append, hseeded.absent] at hv
      cases hv
    rw [Pointer.outline, Pointer.outline, hv, Option.map_some, Option.map_eq_some_iff] at hsame
    exact hsame
  · intro p hnone hsome
    by_contra hno
    have hsame := hkept p fun binding default hseeded =>
      Bool.eq_false_iff.mpr fun hstarts => hno ⟨binding, default, hseeded, hstarts⟩
    have := Pointer.outline_isSome hsame
    rw [hsome, hnone] at this
    cases this
  · intro steps hperm
    rw [FormDefinition.seedDefaults_eq]
    exact SeedStep.foldl_run_perm hperm hsteps hapart hwf
  · rw [FormDefinition.seedDefaults_eq definition formData,
      FormDefinition.seedDefaults_eq definition]
    exact SeedStep.foldl_run_idem hsteps hapart formData

/-! ## Names -/

def namesAnnotations : DataSchemaAnnotations := { defaults := [.string "x"] }

/-- An array of objects with a name: `true` reads the root, `false` an item. -/
def namesReader : SchemaReader Bool where
  root := .ok (0, ⟨{}, some true, false⟩)
  hasProperties _ := true
  propertyNames
    | true => ["people"]
    | false => ["name"]
  isExplicitlyClosedObject _ := false
  property
    | true, _ => .ok (0, ⟨{}, false, .array ⟨none, none, false, .ok (0, ⟨{}, .object false⟩)⟩⟩)
    | false, _ => .ok (0, ⟨namesAnnotations, true, .scalar .string false⟩)

def namesDefinition : FormDefinition :=
  ⟨[], [], [⟨["people"], none, {}, false, .array [], none, none, false,
    ⟨[⟨["name"], some [], .string, [], false, namesAnnotations, some (.string "x"), true⟩],
      [⟨[], none, {}, true, .object []⟩], .object []⟩⟩], [], {}⟩

theorem namesReader_reads : namesReader.Reads fun _ => 0 := by
  have hnone : Annotated (fun _ => 0) {} :=
    ⟨[], by simp, by simp [dataSchemaAnnotations, valueAnnotations, sortAnnotationValues]⟩
  have hname : Annotated (fun _ => 0) namesAnnotations := by
    refine ⟨[⟨.object [("default", .string "x")], "", []⟩], by decide, ?_⟩
    simp [dataSchemaAnnotations, valueAnnotations, sortAnnotationValues, namesAnnotations,
      Value.get, SortedMap.get, pushUniqueValue]
  intro schemas name visits property h
  cases schemas with
  | true =>
    cases h
    refine ⟨hnone, by simp [PropertyShape.choiceValues], fun items hitems => ?_⟩
    obtain rfl := Option.some.inj hitems
    exact ⟨hnone, by simp [ItemShape.choiceValues]⟩
  | false =>
    cases h
    exact ⟨hname, by simp [PropertyShape.choiceValues], by simp [PropertyShape.items]⟩

theorem namesReader_compileGraph : namesReader.compileGraph 10 = .ok namesDefinition := by
  decide +kernel

def unnamed : Value := .object [("people", .array [.object []])]

theorem seed_defaults_exact_names :
    namesDefinition.seedDefaults (namesDefinition.seedDefaults unnamed) =
      .object [("people", .array [.object [("name", .string "x")]])] := by
  have hwf : unnamed.WF := by decide
  have hseeds := seed_defaults_exact (fun _ => 0) namesReader namesReader_reads 10
    namesReader_compileGraph hwf
  rw [hseeds.2.2.2.2]
  decide +kernel

end Schemaform.Engine
