import Schemaform.Compile.ExpandSpec
import Schemaform.Compile.Graph

/-!
# Compile.Inherited

Properties of locations that the schemas of a compilation have from one another.

* `Inherits`: a property that targets of references and subschemas at a pointer have.
* `expandReferences_inherits`, `childSchemas_inherits`, `itemSchemas_inherits`.
* `inherits_wf`: in a graph of JSON documents all schemas are JSON values.
-/

namespace Schemaform.Engine

open Resources (ResourceGraph GraphLocation)

/-- A location below another one, at a pointer into its schema. -/
def subLocation (location : GraphLocation) (tokens : Pointer) (schema : Value) : GraphLocation :=
  { location with
    schema
    pointer := location.pointer ++ tokens
    documentPointer := location.documentPointer ++ tokens }

structure Inherits (graph : ResourceGraph) (P : GraphLocation → Prop) : Prop where
  target : ∀ {baseResource reference target},
    graph.resolveReference baseResource reference = .ok target → P target
  below : ∀ {location tokens schema found}, P location →
    Pointer.resolve tokens location.schema = some schema →
    graph.normalizeLocation (subLocation location tokens schema) = .ok found → P found

variable {graph : ResourceGraph} {activeLocations : List SchemaIdentity}
  {P : GraphLocation → Prop}

/-! ## Subschemas -/

theorem resolve_member {schema member : Value} {keyword : String}
    (h : schema.get keyword = some member) : Pointer.resolve [keyword] schema = some member := by
  cases schema with
  | object members =>
    have hget : SortedMap.get keyword members = some member := h
    rw [Pointer.resolve_cons, Value.child, hget]
    rfl
  | _ => cases h

theorem resolve_property {schema value : Value} {properties : List (String × Value)}
    {keyword name : String} (h : schema.get keyword = some (.object properties))
    (hname : SortedMap.get name properties = some value) :
    Pointer.resolve [keyword, name] schema = some value := by
  have hrest : Pointer.resolve [name] (.object properties) = some value := by
    rw [Pointer.resolve_cons, Value.child, hname]
    rfl
  have := Pointer.resolve_append [keyword] [name] schema
  rw [resolve_member h, Option.bind_some, hrest] at this
  exact this

theorem resolve_item {schema value : Value} {items : List Value} {keyword : String} {index : Nat}
    (h : schema.get keyword = some (.array items)) (hindex : items[index]? = some value) :
    Pointer.resolve [keyword, Nat.repr index] schema = some value := by
  have hless : index < items.length := (List.getElem?_eq_some_iff.mp hindex).1
  have hrest : Pointer.resolve [Nat.repr index] (.array items) = some value := by
    rw [Pointer.resolve_cons, Value.child, Token.indexFor_eq_some.mpr ⟨rfl, hless⟩,
      Option.bind_some, hindex]
    rfl
  have := Pointer.resolve_append [keyword] [Nat.repr index] schema
  rw [resolve_member h, Option.bind_some, hrest] at this
  exact this

theorem allOf_eq_some {located : ApplicableSchema} {branches : List Value} :
    located.allOf = some branches ↔ located.schema.get "allOf" = some (.array branches) := by
  unfold ApplicableSchema.allOf
  rw [Option.bind_eq_some_iff]
  constructor
  · rintro ⟨member, hmember, harray⟩
    rw [hmember, Value.asArray_eq_some.mp harray]
  · intro h
    exact ⟨_, h, rfl⟩

theorem get_properties {located : ApplicableSchema} {name : String} {value : Value}
    (h : SortedMap.get name (Compiled.properties located) = some value) :
    ∃ properties, located.schema.get "properties" = some (.object properties) ∧
      SortedMap.get name properties = some value := by
  unfold Compiled.properties at h
  split at h
  · rename_i properties hproperties
    exact ⟨properties, hproperties, h⟩
  · cases h

/-! ## Schemas of a compilation -/

theorem expands_inherits (hP : Inherits graph P) {located applied : ApplicableSchema}
    (hlocated : P located.location) (h : Expands graph activeLocations located applied) :
    P applied.location := by
  rcases h with ⟨target, ⟨reference, -, hresolve⟩, -, rfl⟩ | ⟨branches, index, branch, hallOf,
    hbranch, hok⟩
  · exact hP.target hresolve
  · obtain ⟨location, hlocation, hok⟩ := bind_eq_ok.mp hok
    cases hok
    exact hP.below hlocated (resolve_item (allOf_eq_some.mp hallOf) hbranch)
      (mapError_eq_ok.mp hlocation)

theorem expandReferences_inherits (hP : Inherits graph P) {schemas : List ApplicableSchema}
    {usedResources : List String} {traversal : ProjectionTraversal} {expansion : SchemaExpansion}
    (hschemas : ∀ located ∈ schemas, P located.location)
    (h : expandReferences graph schemas activeLocations usedResources traversal = .ok expansion) :
    ∀ located ∈ expansion.schemas, P located.location := by
  intro located hl
  obtain ⟨-, hfound, -⟩ := expandReferences_ok h
  obtain ⟨⟨first, hfirst, applied, hreach, rfl⟩, -⟩ := hfound located hl
  clear hl
  rw [joined_location]
  induction hreach with
  | refl => exact hschemas first hfirst
  | @tail between applied _ hstep ih =>
    refine expands_inherits hP ?_ hstep
    rw [joined_location]
    exact ih

theorem childSchemas_inherits (hP : Inherits graph P) {applicable children : List ApplicableSchema}
    {propertyName : String} (happlicable : ∀ located ∈ applicable, P located.location)
    (h : Compiled.childSchemas graph applicable propertyName = .ok children) :
    ∀ child ∈ children, P child.location := by
  intro child hchild
  obtain ⟨located, hl, h⟩ := ListEdit.mem_of_forall₂_right (mapM_eq_ok.mp h) hchild
  obtain ⟨hl, hsome⟩ := List.mem_filter.mp hl
  obtain ⟨value, hvalue⟩ := Option.isSome_iff_exists.mp hsome
  obtain ⟨location, hlocation, h⟩ := bind_eq_ok.mp h
  cases h
  rw [hvalue, Option.getD_some] at hlocation
  obtain ⟨properties, hproperties, hname⟩ := get_properties hvalue
  exact hP.below (happlicable located hl) (resolve_property hproperties hname)
    (mapError_eq_ok.mp hlocation)

theorem qualified_eq_ok {α : Type} {answer : Option α} {a : α} :
    qualified answer = .ok a ↔ answer = some a := by
  cases answer <;> simp [qualified]

theorem locatedSubschema_eq_some {parent location : GraphLocation} {schema : Value}
    {tokens : List String} : locatedSubschema graph parent schema tokens = some location ↔
      graph.normalizeLocation (subLocation parent tokens schema) = .ok location := by
  unfold locatedSubschema
  rw [subLocation]
  cases graph.normalizeLocation _ <;> simp [Except.toOption]

theorem itemSchemas_inherits (hP : Inherits graph P) {applicable items : List ApplicableSchema}
    (happlicable : ∀ located ∈ applicable, P located.location)
    (h : Compiled.itemSchemas graph applicable = .ok items) :
    ∀ item ∈ items, P item.location := by
  intro item hitem
  obtain ⟨located, hl, h⟩ := ListEdit.mem_of_forall₂_right (mapM_eq_ok.mp h) hitem
  obtain ⟨hl, hsome⟩ := List.mem_filter.mp hl
  obtain ⟨value, hvalue⟩ := Option.isSome_iff_exists.mp hsome
  have hvalue : located.schema.get "items" = some value := hvalue
  obtain ⟨location, hlocation, h⟩ := bind_eq_ok.mp h
  cases h
  rw [hvalue, Option.getD_some, qualified_eq_ok, locatedSubschema_eq_some] at hlocation
  exact hP.below (happlicable located hl) (resolve_member hvalue) hlocation

/-! ## JSON values -/

/-- Every document is a JSON value as the parser makes them. -/
def DocumentsWF (graph : ResourceGraph) : Prop := ∀ document ∈ graph.documents, document.WF

theorem normalizeLocation_schema {location found : GraphLocation}
    (h : graph.normalizeLocation location = .ok found) : found.schema = location.schema := by
  unfold ResourceGraph.normalizeLocation at h
  split at h
  · cases h
    rfl
  · split at h
    · cases h
      rfl
    · obtain ⟨canonical, -, h⟩ := bind_eq_ok.mp h
      obtain ⟨root, -, h⟩ := bind_eq_ok.mp h
      split at h
      · cases h
      · cases h
        rfl

theorem schemaAt_wf (hgraph : DocumentsWF graph) {documentIndex : Nat} {pointer : Pointer}
    {schema : Value} (h : graph.schemaAt documentIndex pointer = some schema) : schema.WF := by
  obtain ⟨document, hdocument, hschema⟩ := Option.bind_eq_some_iff.mp h
  exact Pointer.WF_resolve (hgraph document (List.mem_of_getElem? hdocument)) hschema

theorem orInvalid_eq_ok {α : Type} {answer : Option α} {a : α} :
    Resources.orInvalid answer = .ok a ↔ answer = some a := by
  cases answer <;> simp [Resources.orInvalid]

theorem orPanic_eq_ok {α : Type} {message : String} {answer : Option α} {a : α} :
    Resources.orPanic message answer = .ok a ↔ answer = some a := by
  cases answer <;> simp [Resources.orPanic]

theorem locationFromRoot_wf (hgraph : DocumentsWF graph) {root : Resources.ResourceRoot}
    {location : GraphLocation} (h : graph.locationFromRoot root = .ok location) :
    location.schema.WF := by
  obtain ⟨schema, hschema, h⟩ := bind_eq_ok.mp h
  cases h
  exact schemaAt_wf hgraph (orPanic_eq_ok.mp hschema)

theorem resolveReference_wf (hgraph : DocumentsWF graph) {baseResource reference : String}
    {target : GraphLocation} (h : graph.resolveReference baseResource reference = .ok target) :
    target.schema.WF := by
  obtain ⟨raw, hraw, h⟩ := bind_eq_ok.mp h
  rw [normalizeLocation_schema h]
  obtain ⟨resolved, -, hraw⟩ := bind_eq_ok.mp hraw
  obtain ⟨resource, -, hraw⟩ := bind_eq_ok.mp hraw
  obtain ⟨root, -, hraw⟩ := bind_eq_ok.mp hraw
  split at hraw
  · exact locationFromRoot_wf hgraph hraw
  · split at hraw
    · obtain ⟨anchor, -, hraw⟩ := bind_eq_ok.mp hraw
      obtain ⟨anchored, -, hraw⟩ := bind_eq_ok.mp hraw
      obtain ⟨schema, hschema, hraw⟩ := bind_eq_ok.mp hraw
      cases hraw
      exact schemaAt_wf hgraph (orPanic_eq_ok.mp hschema)
    · obtain ⟨fragment, -, hraw⟩ := bind_eq_ok.mp hraw
      obtain ⟨requested, -, hraw⟩ := bind_eq_ok.mp hraw
      obtain ⟨schema, hschema, hraw⟩ := bind_eq_ok.mp hraw
      obtain ⟨pointer, -, hraw⟩ := bind_eq_ok.mp hraw
      cases hraw
      exact schemaAt_wf hgraph (orInvalid_eq_ok.mp hschema)

theorem inherits_wf (hgraph : DocumentsWF graph) :
    Inherits graph fun location => location.schema.WF where
  target h := resolveReference_wf hgraph h
  below hwf hschema h := by
    rw [normalizeLocation_schema h]
    exact Pointer.WF_resolve hwf hschema

end Schemaform.Engine
