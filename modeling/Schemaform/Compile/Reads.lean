import Schemaform.Compile.Refines
import Schemaform.Compile.ScalarSpec

/-!
# Compile.Reads

What the compiler reads of a graph of JSON documents is what the abstract projection relies on.

* `scalarChoices_wf`: options are JSON values.
* `reader_reads`.
* `compile_projects`: what compiles is what the abstract projection over the reader compiles.
* `compiled_wellFormed`: every place once, below its parent, with values of its own shape.
-/

namespace Schemaform.Engine

open Resources (ResourceGraph GraphLocation)
open Engine.Compiled

/-! ## Options -/

theorem seedChoices_wf {constantChoices : List RecognizedConstantChoice}
    {enumerations : List (List Value)} {constants : List Value}
    (hs : SourcesWF constantChoices enumerations constants) :
    ChoicesWF (seedChoices constantChoices enumerations constants).1 ∧
      ∀ allowed ∈ (seedChoices constantChoices enumerations constants).2, ∀ u ∈ allowed, u.WF := by
  by_cases hsource : constantChoices ≠ [] ∨ enumerations ≠ [] ∨ constants ≠ []
  · obtain ⟨hseed, hleft, -⟩ := seedChoices_spec hsource hs .null
    exact ⟨hseed, hleft⟩
  · simp only [not_or, not_not] at hsource
    obtain ⟨rfl, rfl, rfl⟩ := hsource
    refine ⟨fun choice hchoice => ?_, by simp [seedChoices]⟩
    rw [List.mem_singleton.mp hchoice]
    show Value.null.WF
    decide

theorem narrowedChoices_wf {applicable : List LocatedSchema}
    {constantChoices : List RecognizedConstantChoice} {enumerations : List (List Value)}
    {constants : List Value} (hs : SourcesWF constantChoices enumerations constants) :
    ChoicesWF (narrowedChoices applicable constantChoices enumerations constants) := by
  have hnull : Value.null.WF := by decide
  obtain ⟨hseed, hleft⟩ := seedChoices_wf hs
  obtain ⟨hwf₁, -⟩ := offers_foldl_retain
    (fun other : RecognizedConstantChoice => other.choices.map (·.value))
    (constantChoices.drop 1) hseed (by
      intro other hother u hu
      obtain ⟨choice, hmem, rfl⟩ := List.mem_map.mp hu
      exact hs.constantChoices other (List.mem_of_mem_drop hother) choice hmem) hnull
  obtain ⟨hwf₂, -⟩ := offers_foldl_retain (fun allowed => allowed) _ hwf₁ hleft hnull
  obtain ⟨hwf₃, -⟩ := offers_foldl_retain (fun constant => [constant]) constants hwf₂ (by
      intro constant hmem u hu
      exact List.mem_singleton.mp hu ▸ hs.constants constant hmem) hnull
  exact fun choice hmem => hwf₃ choice (List.mem_of_mem_filter hmem)

theorem scalarChoices_wf {applicable : List LocatedSchema} {kind : Option ProjectedKind}
    {choices : AnnotatedChoices} (hwf : ∀ located ∈ applicable, located.schema.WF)
    (h : scalarChoices applicable kind = .ok (some choices)) : ChoicesWF choices.values := by
  obtain ⟨-, hmem⟩ := scalarChoices_some h
  have hnil : ChoicesWF [] := fun c hc => absurd hc List.not_mem_nil
  intro choice hchoice
  exact addUnique_wf (narrowedChoices_wf (sources_wf hwf)) hnil choice ((hmem choice).mp hchoice)

section Reads

variable {compiler : GraphReader} {projected : ProjectedSchemas}
  (wf : ∀ located ∈ projected.schemas, located.schema.WF)

include wf

theorem plainSchemas_wf : ∀ located ∈ plainSchemas projected.schemas, located.schema.WF := by
  intro located hl
  obtain ⟨applicable, happlicable, rfl⟩ := List.mem_map.mp hl
  exact wf applicable happlicable

theorem annotations_annotated : Annotated compiler.digest (compiler.annotations projected) :=
  ⟨plainSchemas projected.schemas, plainSchemas_wf wf, rfl⟩

end Reads

/-- The kind and the options are those of the schemas. -/
theorem projectedSchemas_choices {graph : ResourceGraph} {fuel : Nat} {expansion : SchemaExpansion}
    {projected : ProjectedSchemas} (h : projectedSchemas graph fuel expansion = .ok projected) :
    projected.kind = inferKind (plainSchemas projected.schemas) ∧
      ∀ choices, projected.choices = some choices →
        scalarChoices (plainSchemas projected.schemas) projected.kind = .ok (some choices) := by
  obtain ⟨⟨choices, choiceFindings⟩, hchoices, h⟩ := bind_eq_ok.mp h
  obtain ⟨deferred, -, h⟩ := bind_eq_ok.mp h
  cases h
  refine ⟨rfl, fun annotated hannotated => ?_⟩
  unfold choicesOrFinding at hchoices
  dsimp only at hannotated ⊢
  split at hchoices
  · rename_i found hfound
    cases hchoices
    rw [← hannotated]
    exact hfound
  · cases hchoices
    cases hannotated
  · cases hchoices

theorem projected_choices {compiler : GraphReader} {schemas : List ApplicableSchema}
    {activeLocations : List SchemaIdentity} {hwf : ∀ located ∈ schemas, located.schema.WF}
    {visits : Nat} {projected : { projected : ProjectedSchemas //
      ∀ located ∈ projected.schemas, located.schema.WF }}
    (h : compiler.projected schemas activeLocations hwf = .ok (visits, projected)) :
    ∀ choices, projected.1.choices = some choices → ∀ v ∈ choices.plain.values, v.WF := by
  obtain ⟨expansion, -, h⟩ := bind_eq_ok.mp h
  obtain ⟨found, hfound, h⟩ := bind_eq_ok.mp h
  cases h
  intro choices hchoices v hv
  obtain ⟨choice, hchoice, rfl⟩ := List.mem_map.mp hv
  obtain ⟨-, hscalar⟩ := projectedSchemas_choices (certified_eq_ok.mp hfound)
  exact scalarChoices_wf (plainSchemas_wf projected.2) (hscalar choices hchoices) choice hchoice

theorem items_reads {compiler : GraphReader} {applicable : List ApplicableSchema}
    {activeLocations : List SchemaIdentity} {wf : ∀ located ∈ applicable, located.schema.WF}
    {visits : Nat} {items : Items ObjectSchemas}
    (h : compiler.items applicable activeLocations wf = .ok (visits, items)) :
    items.Reads compiler.digest := by
  obtain ⟨schemas, -, h⟩ := bind_eq_ok.mp h
  split at h
  · cases h
    exact ⟨⟨[], by simp, rfl⟩, by simp [ItemShape.choiceValues]⟩
  · obtain ⟨⟨visits, projected⟩, hprojected, h⟩ := bind_eq_ok.mp h
    cases h
    refine ⟨annotations_annotated projected.2, ?_⟩
    show ∀ v ∈ (GraphReader.itemShape projected.1 activeLocations projected.2).choiceValues, v.WF
    unfold GraphReader.itemShape
    split
    · split
      · simp [ItemShape.choiceValues]
      · unfold GraphReader.scalarShape
        split
        · rename_i choices hchoices
          exact projected_choices hprojected choices hchoices
        · split <;> simp [ItemShape.choiceValues]
    · simp [ItemShape.choiceValues]

theorem items_of_array {compiler : GraphReader} {projected : ProjectedSchemas}
    {activeLocations : List SchemaIdentity}
    {wf : ∀ located ∈ projected.schemas, located.schema.WF} {items : Items ObjectSchemas}
    (h : (PropertyShape.array (compiler.array projected activeLocations wf)).items = some items) :
    items.Reads compiler.digest := by
  obtain ⟨⟨visits, read⟩, hread, rfl⟩ := Option.map_eq_some_iff.mp h
  cases hitems : (compiler.array projected activeLocations wf).items with
  | error e =>
    rw [hitems] at hread
    cases hread
  | ok found =>
    rw [hitems] at hread
    cases hread
    exact @items_reads compiler projected.schemas activeLocations wf visits read hitems

/-- What the compiler reads of the graph is as the projection relies on. -/
theorem reader_reads (compiler : GraphReader) (location : GraphLocation)
    (hroot : location.schema.WF) : (compiler.reader location hroot).Reads compiler.digest := by
  intro object name visits property h
  obtain ⟨children, -, h⟩ := bind_eq_ok.mp h
  obtain ⟨⟨visits, projected⟩, hprojected, h⟩ := bind_eq_ok.mp h
  cases h
  refine ⟨annotations_annotated projected.2, ?_, ?_⟩
  · dsimp only
    split
    · unfold GraphReader.propertyShape
      split
      · rename_i _ choices hchoices
        exact projected_choices hprojected choices hchoices
      · simp [PropertyShape.choiceValues]
      · simp [PropertyShape.choiceValues]
      · split <;> simp [PropertyShape.choiceValues]
      · simp [PropertyShape.choiceValues]
    · simp [PropertyShape.choiceValues]
  · intro items hitems
    dsimp only at hitems
    split at hitems
    · unfold GraphReader.propertyShape at hitems
      split at hitems
      · cases hitems
      · cases hitems
      · exact items_of_array hitems
      · split at hitems <;> cases hitems
      · cases hitems
    · cases hitems

/-! ## Definitions -/

/-- The compiler of a graph refines the projection over its reader, which reads the schemas alone. -/
theorem compile_projects (compiler : GraphReader) {location : GraphLocation}
    (hroot : location.schema.WF) {definition : Compiled.FormDefinition}
    (h : Compiled.compileGraph compiler.digest compiler.usizeMax compiler.graph compiler.fuel
      location compiler.maxTraversal = .ok definition) :
    (compiler.reader location hroot).compileGraph compiler.maxTraversal = .ok definition.plain ∧
      (compiler.reader location hroot).Reads compiler.digest :=
  ⟨compileGraph_refines hroot h, reader_reads compiler location hroot⟩

theorem compiled_wellFormed {digest : List UInt8 → Nat} {usizeMax : Nat} {graph : ResourceGraph}
    {fuel : Nat} {location : GraphLocation} {maxTraversal : Nat}
    {definition : Compiled.FormDefinition} (hgraph : DocumentsWF graph)
    (hroot : location.schema.WF)
    (h : Compiled.compileGraph digest usizeMax graph fuel location maxTraversal =
      .ok definition) :
    definition.plain.Projected ∧ definition.plain.WellFormed ∧
      ∀ array ∈ definition.plain.arrays, array.ScalarItems := by
  let compiler : GraphReader := ⟨digest, usizeMax, graph, fuel, maxTraversal, hgraph⟩
  have hrefines : (compiler.reader location hroot).compileGraph maxTraversal =
      .ok definition.plain := @compileGraph_refines compiler location hroot definition h
  have hreads := reader_reads compiler location hroot
  refine ⟨?_, ?_, ?_⟩
  · exact (compiler.reader location hroot).compileGraph_projected hrefines
  · exact SchemaReader.compileGraph_wellFormed hreads hrefines
  · exact SchemaReader.compileGraph_scalarItems hreads hrefines

namespace CompileSample

/-- A text and an array of booleans. -/
def schema : Value :=
  .object [
    ("properties", .object [
      ("a", .object [("type", .string "string")]),
      ("b", .object [("items", .object [("type", .string "boolean")]),
        ("type", .string "array")])]),
    ("type", .string "object")]

def documents : ResourceGraph where
  uris := {
    resolveAgainst := fun base reference => some (base ++ reference)
    normalize := some }
  documents := [schema]
  aliases := [("s:r", ⟨0, "s:r", []⟩)]
  anchors := []

def root : GraphLocation := ⟨schema, 0, "s:r", [], [], []⟩

theorem documents_wf : DocumentsWF documents := by
  unfold DocumentsWF
  decide

def compiler : GraphReader := ⟨fun _ => 0, 100, documents, 20, 30, documents_wf⟩

def compiled : Except CompileError Compiled.FormDefinition :=
  Compiled.compileGraph compiler.digest compiler.usizeMax compiler.graph compiler.fuel root
    compiler.maxTraversal

theorem compiled_isOk : compiled.toOption.isSome = true := by decide +kernel

end CompileSample

open CompileSample in
theorem compile_projects_array : ∃ definition, compiled = .ok definition ∧
    (compiler.reader root (by decide)).compileGraph 30 = .ok definition.plain := by
  have hok := compiled_isOk
  cases h : compiled with
  | error e =>
    rw [h] at hok
    cases hok
  | ok definition => exact ⟨definition, rfl, (compile_projects compiler _ h).1⟩

open CompileSample in
theorem compiled_wellFormed_array : ∃ definition, compiled = .ok definition ∧
    definition.plain.WellFormed := by
  have hok := compiled_isOk
  cases h : compiled with
  | error e =>
    rw [h] at hok
    cases hok
  | ok definition =>
    exact ⟨definition, rfl, (compiled_wellFormed compiler.wf (by decide) h).2.1⟩

end Schemaform.Engine
