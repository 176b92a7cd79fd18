import Schemaform.Compile.Meaning

/-!
# Compile.Complete

No property that a schema declares is left out of a form.

* `Declares`: a schema has a property under a name.
* `FormDefinition.Complete`: one place for each property declared at the root and at an object.
* `compiled_complete`, from what the walk records; `prepared_complete` for prepared resources.
-/

namespace Schemaform.Engine

open Resources (ResourceGraph GraphLocation ResourceTables Library)
open Engine.Compiled

def Declares (schema : Value) (name : String) : Prop :=
  ∃ properties, schema.get "properties" = some (.object properties) ∧
    (SortedMap.get name properties).isSome

/-- One entry at a place. -/
def PlacedOnce (entries : List Entry) (binding : Pointer) : Prop :=
  ∃! e, e ∈ entries ∧ e.binding = binding

theorem Scope.placedOnce {entries : List Entry} (h : Scope entries) {e : Entry} (he : e ∈ entries) :
    PlacedOnce entries e.binding :=
  ⟨e, ⟨he, rfl⟩, fun _ hother => List.inj_on_of_nodup_map h.nodup hother.1 he hother.2⟩

/-- Every property that is declared at an object of the form has its place. -/
structure FormDefinition.Complete (definition : Engine.FormDefinition)
    (applies : InstancePlace → GraphLocation → Prop) : Prop where
  root : ∀ location name, applies .root location → Declares location.schema name →
    PlacedOnce definition.entries [name]
  objects : ∀ object ∈ definition.objects, ∀ location name,
    applies (InstancePlace.root.descend object.binding) location →
      Declares location.schema name → PlacedOnce definition.entries (object.binding ++ [name])
  templates : ∀ array ∈ definition.arrays, ∀ object ∈ array.itemTemplate.objects,
    ∀ location name, applies
        ((InstancePlace.item (InstancePlace.root.descend array.binding)).descend object.binding)
        location → Declares location.schema name →
      PlacedOnce array.itemTemplate.entries (object.binding ++ [name])

/-! ## Names -/

theorem isSome_get {name : String} {members : List (String × Value)} :
    (SortedMap.get name members).isSome ↔ name ∈ members.map Prod.fst := by
  rw [← Option.ne_none_iff_isSome, ne_eq, SortedMap.get_eq_none_iff]
  simp

theorem mem_propertyNames {applicable : List ApplicableSchema} {name : String} :
    name ∈ propertyNames applicable ↔ ∃ located ∈ applicable, Declares located.schema name := by
  unfold propertyNames
  rw [List.mem_flatMap]
  refine exists_congr fun located => and_congr_right fun _ => ?_
  rw [← isSome_get]
  constructor
  · intro h
    obtain ⟨value, hvalue⟩ := Option.isSome_iff_exists.mp h
    obtain ⟨properties, hproperties, hname⟩ := get_properties hvalue
    exact ⟨properties, hproperties, by rw [hname]; rfl⟩
  · intro h
    obtain ⟨members, hmembers, hname⟩ := h
    unfold Compiled.properties
    rw [hmembers]
    exact hname

/-- Where the schemas that apply have been found, the names they declare are the names read. -/
theorem Found.declared {P applies : GraphLocation → Prop} {schemas : List ApplicableSchema}
    (h : Found P applies schemas) {location : GraphLocation} {name : String}
    (happlies : applies location) (hdeclares : Declares location.schema name) :
    name ∈ propertyNames schemas := by
  obtain ⟨located, hl, rfl⟩ := (h.exact location).mp happlies
  exact mem_propertyNames.mpr ⟨located, hl, hdeclares⟩

theorem hasProperties_of_declared {schemas : List ApplicableSchema} {name : String}
    (h : name ∈ propertyNames schemas) : hasProperties schemas = true := by
  obtain ⟨located, hl, properties, hproperties, -⟩ := mem_propertyNames.mp h
  refine List.any_eq_true.mpr ⟨located.plain, List.mem_map_of_mem hl, ?_⟩
  show (located.schema.get "properties").isSome = true
  rw [hproperties]
  rfl

/-! ## Definitions -/

section Walks

variable {compiler : GraphReader} {root location : GraphLocation} {wf : location.schema.WF}
  {P : GraphLocation → Prop} (hP : Addressed compiler.graph P) {start : Option Pointer}
  {first : ObjectSchemas} {base : InstancePlace}
  (hfirst : Found P (AppliesAt compiler.graph root (base.descend (start.getD []))) first.schemas)
  {entries : List Entry}

include hP hfirst

theorem fromObject_placed (hscope : Scope entries) {object : Engine.ObjectDefinition}
    (h : (compiler.reader location wf).FromObject start first entries object)
    {found : GraphLocation} {name : String}
    (happlies : AppliesAt compiler.graph root (base.descend object.binding) found)
    (hdeclares : Declares found.schema name) :
    PlacedOnce entries (object.binding ++ [name]) := by
  obtain ⟨schemas, hbelow, hfilled⟩ := h
  have hschemas := objectBelow_found hP hfirst hbelow
  obtain ⟨e, he, hbinding⟩ := hfilled name (hschemas.declared happlies hdeclares)
  exact hbinding ▸ hscope.placedOnce he

end Walks

theorem compiled_complete {compiler : GraphReader} {P : GraphLocation → Prop}
    (hP : Addressed compiler.graph P) {location : GraphLocation} (hlocation : P location)
    (hroot : location.schema.WF) {definition : Compiled.FormDefinition}
    (h : Compiled.compileGraph compiler.digest compiler.usizeMax compiler.graph compiler.fuel
      location compiler.maxTraversal = .ok definition)
    (hregions : ∀ region ∈ definition.unsupportedRegions, region.binding ≠ []) :
    definition.plain.Complete (AppliesAt compiler.graph location) := by
  obtain ⟨shape, first, hfirst, hrecords, hfound⟩ :=
    compiled_found hP hlocation hroot h hregions
  have hprojected := SchemaReader.compileGraph_projected (compileGraph_refines hroot h)
  refine ⟨fun found name happlies hdeclares => ?_,
    fun object hobject found name happlies hdeclares => ?_,
    fun array harray object hobject found name happlies hdeclares => ?_⟩
  · have hname := hfound.declared happlies hdeclares
    obtain ⟨e, he, hbinding⟩ :=
      hrecords.properties first hfirst (hasProperties_of_declared hname) name hname
    rw [List.nil_append] at hbinding
    exact hbinding ▸ hprojected.scope.placedOnce he
  · obtain ⟨other, hother, hfrom⟩ := hrecords.objects object hobject
    cases hfirst.symm.trans hother
    exact fromObject_placed hP hfound hprojected.scope hfrom happlies hdeclares
  · obtain ⟨other, hother, hfrom⟩ := hrecords.arrays array harray
    cases hfirst.symm.trans hother
    obtain ⟨items, htemplate, hitems, -⟩ := fromArray_found hP hfound hfrom
    obtain ⟨schemas, hshape, hfrom⟩ := htemplate.objects object hobject
    exact fromObject_placed hP (hitems schemas hshape) (hprojected.templates array harray).scope
      hfrom happlies hdeclares

/-- No property is left out of a form from prepared resources, and none stands twice. -/
theorem prepared_complete {library : Library} {tables : ResourceTables} {location : GraphLocation}
    {definition : Compiled.FormDefinition} (h : PreparedForm library tables location definition) :
    definition.plain.Complete (AppliesAt (tables.graph library.uris) location) := by
  obtain ⟨compiler, P, hgraph, hP, hlocated, hroot, hcompiled⟩ := h.compiler
  rw [← hgraph]
  exact compiled_complete hP hlocated hroot hcompiled h.whole

open MeaningSample in
theorem prepared_complete_text : ∃ tables location definition,
    PreparedForm library tables location definition ∧
      definition.plain.controls.map (·.binding) = [["a"]] ∧
      definition.plain.Complete (AppliesAt (tables.graph library.uris) location) := by
  obtain ⟨tables, location, definition, hprepared, hcontrols, -⟩ := form_prepared
  exact ⟨tables, location, definition, hprepared, hcontrols, prepared_complete hprepared⟩

end Schemaform.Engine
