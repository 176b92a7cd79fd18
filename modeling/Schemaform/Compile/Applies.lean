import Schemaform.Compile.BranchSpec
import Schemaform.Compile.Inherited

/-!
# Compile.Applies

The schemas that apply at the places of an instance, and that a compilation finds them all.

* `InstancePlace`: the root of an instance, a member of an object, the items of an array.
* `Applying`: what applies through some schemas.
* `AppliesAt`: what applies at a place, from the root schema on.
* `Addressed`: a resource and a pointer are the address of one location.
* `expandReferences_applying`: an expansion without recursion finds what applies, and nothing else.
* `childSchemas_applying`, `itemSchemas_applying`: the schemas one step below a place.
-/

namespace Schemaform.Engine

open Resources (ResourceGraph GraphLocation)

/-! ## Places -/

inductive InstancePlace where
  | root
  | property (parent : InstancePlace) (name : String)
  | item (array : InstancePlace)

/-- The place at a pointer of property names. -/
def InstancePlace.descend (place : InstancePlace) (pointer : Pointer) : InstancePlace :=
  pointer.foldl .property place

theorem InstancePlace.descend_append (place : InstancePlace) (pointer : Pointer) (name : String) :
    place.descend (pointer ++ [name]) = .property (place.descend pointer) name :=
  List.foldl_append

/-! ## Applying schemas -/

section Applying

variable (graph : ResourceGraph)

/-- Through `$ref` and `allOf`, from schemas that are given directly. -/
def Applying (direct : GraphLocation → Prop) (location : GraphLocation) : Prop :=
  ∃ given, direct given ∧ Applies graph given location

def PropertyOf (name : String) (location found : GraphLocation) : Prop :=
  ∃ properties schema, location.schema.get "properties" = some (.object properties) ∧
    SortedMap.get name properties = some schema ∧
    graph.normalizeLocation (subLocation location ["properties", name] schema) = .ok found

def ItemOf (location found : GraphLocation) : Prop :=
  ∃ schema, location.schema.get "items" = some schema ∧
    graph.normalizeLocation (subLocation location ["items"] schema) = .ok found

/-- What applies at a place of an instance of the root schema. -/
def AppliesAt (root : GraphLocation) : InstancePlace → GraphLocation → Prop
  | .root => Applying graph (· = root)
  | .property parent name =>
    Applying graph fun found => ∃ location, AppliesAt root parent location ∧
      PropertyOf graph name location found
  | .item array =>
    Applying graph fun found => ∃ location, AppliesAt root array location ∧
      ItemOf graph location found

/-- Locations of a kind that are inherited and have an address each. -/
structure Addressed (P : GraphLocation → Prop) : Prop extends Inherits graph P where
  address : ∀ {location other}, P location → P other → location.resource = other.resource →
    location.pointer = other.pointer → location = other

end Applying

variable {graph : ResourceGraph} {P : GraphLocation → Prop}

/-- The schemas found at a place are those that apply there. -/
structure Found (P : GraphLocation → Prop) (applies : GraphLocation → Prop)
    (schemas : List ApplicableSchema) : Prop where
  kind : ∀ located ∈ schemas, P located.location
  exact : ∀ location, applies location ↔ ∃ located ∈ schemas, located.location = location

theorem toOption_eq_some {α ε : Type} {x : Except ε α} {a : α} :
    x.toOption = some a ↔ x = .ok a := by
  cases x <;> simp [Except.toOption]

/-- Schemas with one key stand at one location. -/
theorem Covered.location (hP : Addressed graph P) {schemas : List ApplicableSchema}
    {located : ApplicableSchema} (hschemas : ∀ located ∈ schemas, P located.location)
    (hlocated : P located.location) (h : Covered schemas located) :
    ∃ other ∈ schemas, other.location = located.location := by
  obtain ⟨other, hother, hsame⟩ := h
  obtain ⟨hresource, hpointer, -⟩ := ExpansionKey.same_iff.mp hsame
  refine ⟨other, hother, hP.address (hschemas other hother) hlocated ?_ ?_⟩
  · have : other.resource = located.joined.resource := hresource
    rw [ApplicableSchema.resource, ApplicableSchema.resource, joined_location] at this
    exact this
  · have : other.pointer = located.joined.pointer := hpointer
    rw [ApplicableSchema.pointer, ApplicableSchema.pointer, joined_location] at this
    exact this

theorem allOfBranch_location {located applied : ApplicableSchema} {branches : List Value}
    {index : Nat} {branch : Value}
    (h : allOfBranch graph located branches index branch = .ok applied) :
    graph.normalizeLocation (subLocation located.location ["allOf", Nat.repr index] branch) =
      .ok applied.location := by
  obtain ⟨location, hlocation, h⟩ := bind_eq_ok.mp h
  cases h
  exact mapError_eq_ok.mp hlocation

theorem referenceTarget_eq_some {located target : GraphLocation} :
    referenceTarget graph located = some (some target) ↔ ∃ reference,
      textKeyword located.schema "$ref" = some reference ∧
        graph.resolveReference located.resource reference = .ok target := by
  unfold referenceTarget textKeyword
  cases (located.schema.get "$ref").bind Value.asString with
  | none => simp
  | some reference => simp [toOption_eq_some]

theorem mem_allOfBranches {located branch : GraphLocation} :
    some branch ∈ allOfBranches graph located ↔ ∃ branches index schema,
      located.schema.get "allOf" = some (.array branches) ∧ branches[index]? = some schema ∧
        graph.normalizeLocation (subLocation located ["allOf", Nat.repr index] schema) =
          .ok branch := by
  unfold allOfBranches
  constructor
  · intro h
    cases hbranches : (located.schema.get "allOf").bind Value.asArray with
    | none =>
      rw [hbranches] at h
      cases h
    | some branches =>
      rw [hbranches] at h
      obtain ⟨member, hmember, harray⟩ := Option.bind_eq_some_iff.mp hbranches
      obtain ⟨index, hindex, heq⟩ := List.mem_mapIdx.mp h
      refine ⟨branches, index, branches[index], ?_, List.getElem?_eq_getElem hindex,
        locatedSubschema_eq_some.mp heq⟩
      rw [hmember, Value.asArray_eq_some.mp harray]
  · rintro ⟨branches, index, schema, hbranches, hschema, hstands⟩
    rw [hbranches]
    obtain ⟨hindex, rfl⟩ := List.getElem?_eq_some_iff.mp hschema
    exact List.mem_mapIdx.mpr ⟨index, hindex, locatedSubschema_eq_some.mpr hstands⟩

theorem Expands.joins {activeLocations : List SchemaIdentity} {located applied : ApplicableSchema}
    (h : Expands graph activeLocations located applied) :
    Joins graph located.location applied.location := by
  rcases h with ⟨target, hrefers, -, rfl⟩ | ⟨branches, index, branch, hallOf, hlisted, hok⟩
  · exact .inl (referenceTarget_eq_some.mpr hrefers)
  · exact .inr (mem_allOfBranches.mpr ⟨branches, index, branch, allOf_eq_some.mp hallOf, hlisted,
      allOfBranch_location hok⟩)

section Expansion

variable {schemas : List ApplicableSchema} {activeLocations : List SchemaIdentity}
  {usedResources : List String} {traversal : ProjectionTraversal} {expansion : SchemaExpansion}

theorem expandReferences_sound {direct : GraphLocation → Prop}
    (hdirect : ∀ located ∈ schemas, direct located.location)
    (h : expandReferences graph schemas activeLocations usedResources traversal = .ok expansion) :
    ∀ located ∈ expansion.schemas, Applying graph direct located.location := by
  intro located hl
  obtain ⟨-, hfound, -⟩ := expandReferences_ok h
  obtain ⟨⟨first, hfirst, applied, hreach, rfl⟩, -⟩ := hfound located hl
  clear hl
  rw [joined_location]
  refine ⟨first.location, hdirect first hfirst, ?_⟩
  induction hreach with
  | refl => exact .refl
  | @tail between applied _ hstep ih =>
    have hjoins : Joins graph between.joined.location applied.location := hstep.joins
    rw [joined_location] at hjoins
    exact ih.tail hjoins

/-- By induction on what applies. -/
theorem expandReferences_complete (hP : Addressed graph P) {direct : GraphLocation → Prop}
    (hschemas : ∀ located ∈ schemas, P located.location)
    (hdirect : ∀ location, direct location → ∃ located ∈ schemas, located.location = location)
    (h : expandReferences graph schemas activeLocations usedResources traversal = .ok expansion)
    (hrecursions : expansion.recursiveFindings = []) {location : GraphLocation}
    (happlying : Applying graph direct location) :
    ∃ located ∈ expansion.schemas, located.location = location := by
  have hkind := expandReferences_inherits hP.toInherits hschemas h
  obtain ⟨hinitial, hfound, -, htold, -⟩ := expandReferences_ok h
  have hexpanded {located applied : ApplicableSchema} (hl : located ∈ expansion.schemas)
      (hexpands : Expands graph activeLocations located applied) :
      ∃ other ∈ expansion.schemas, other.location = applied.location :=
    Covered.location hP hkind (expands_inherits hP.toInherits (hkind located hl) hexpands)
      ((hfound located hl).2 applied hexpands)
  obtain ⟨given, hgiven, happlies⟩ := happlying
  induction happlies with
  | refl =>
    obtain ⟨located, hl, rfl⟩ := hdirect _ hgiven
    exact Covered.location hP hkind (hschemas located hl) (hinitial located hl)
  | @tail between location _ hjoins ih =>
    obtain ⟨located, hl, rfl⟩ := ih
    rcases hjoins with hreference | hbranch
    · have hrefers : RefersTo graph located location := referenceTarget_eq_some.mp hreference
      have hnot : ¬ Recurs graph activeLocations located := by
        intro hrecurs
        have htold := htold located hl hrecurs
        rw [hrecursions] at htold
        cases htold
      exact hexpanded hl (.inl ⟨location, hrefers, hnot, rfl⟩)
    · obtain ⟨branches, index, schema, hkeyword, hlisted, hstands⟩ := mem_allOfBranches.mp hbranch
      have hok : allOfBranch graph located branches index schema = .ok ⟨location,
          pushMembership located.allOfMemberships ⟨located.allOfOrigin branches, some index⟩,
          insertValue located.referencePath (schemaIdentity location)⟩ :=
        bind_eq_ok.mpr ⟨location, mapError_eq_ok.mpr hstands, rfl⟩
      exact hexpanded hl (.inr ⟨branches, index, schema, allOf_eq_some.mpr hkeyword, hlisted, hok⟩)

/-- An expansion that meets no recursion finds exactly what applies. -/
theorem expandReferences_applying (hP : Addressed graph P) {direct : GraphLocation → Prop}
    (hdirect : Found P direct schemas)
    (h : expandReferences graph schemas activeLocations usedResources traversal = .ok expansion)
    (hrecursions : expansion.recursiveFindings = []) :
    Found P (Applying graph direct) expansion.schemas where
  kind := expandReferences_inherits hP.toInherits hdirect.kind h
  exact location := by
    constructor
    · intro happlying
      exact expandReferences_complete hP hdirect.kind
        (fun location => (hdirect.exact location).mp) h hrecursions happlying
    · intro hfound
      obtain ⟨located, hl, rfl⟩ := hfound
      exact expandReferences_sound
        (fun located hl => (hdirect.exact _).mpr ⟨located, hl, rfl⟩) h located hl

end Expansion

/-! ## One step below -/

theorem childSchemas_applying (hP : Addressed graph P) {applies : GraphLocation → Prop}
    {applicable children : List ApplicableSchema} (hfound : Found P applies applicable)
    {propertyName : String}
    (h : Compiled.childSchemas graph applicable propertyName = .ok children) :
    Found P (fun found => ∃ location, applies location ∧
      PropertyOf graph propertyName location found) children where
  kind := childSchemas_inherits hP.toInherits hfound.kind h
  exact found := by
    have hforall := mapM_eq_ok.mp h
    constructor
    · rintro ⟨location, happlies, properties, schema, hproperties, hname, hstands⟩
      obtain ⟨located, hl, rfl⟩ := (hfound.exact location).mp happlies
      have hget : SortedMap.get propertyName (Compiled.properties located) = some schema := by
        unfold Compiled.properties
        have hproperties : located.schema.get "properties" = some (.object properties) :=
          hproperties
        rw [hproperties]
        exact hname
      have hmem : located ∈ applicable.filter fun located =>
          (SortedMap.get propertyName (Compiled.properties located)).isSome :=
        List.mem_filter.mpr ⟨hl, by rw [hget]; rfl⟩
      obtain ⟨child, hchild, heq⟩ := ListEdit.mem_of_forall₂_right hforall.flip hmem
      obtain ⟨location, hlocation, heq⟩ := bind_eq_ok.mp heq
      cases heq
      rw [hget, Option.getD_some] at hlocation
      have hlocation := mapError_eq_ok.mp hlocation
      exact ⟨_, hchild, Except.ok.inj (hlocation.symm.trans hstands)⟩
    · rintro ⟨child, hchild, rfl⟩
      obtain ⟨located, hl, heq⟩ := ListEdit.mem_of_forall₂_right hforall hchild
      obtain ⟨hl, hsome⟩ := List.mem_filter.mp hl
      obtain ⟨schema, hschema⟩ := Option.isSome_iff_exists.mp hsome
      obtain ⟨location, hlocation, heq⟩ := bind_eq_ok.mp heq
      cases heq
      rw [hschema, Option.getD_some] at hlocation
      obtain ⟨properties, hproperties, hname⟩ := get_properties hschema
      exact ⟨located.location, (hfound.exact _).mpr ⟨located, hl, rfl⟩, properties, schema,
        hproperties, hname, mapError_eq_ok.mp hlocation⟩

theorem itemSchemas_applying (hP : Addressed graph P) {applies : GraphLocation → Prop}
    {applicable items : List ApplicableSchema} (hfound : Found P applies applicable)
    (h : Compiled.itemSchemas graph applicable = .ok items) :
    Found P (fun found => ∃ location, applies location ∧ ItemOf graph location found) items where
  kind := itemSchemas_inherits hP.toInherits hfound.kind h
  exact found := by
    have hforall := mapM_eq_ok.mp h
    constructor
    · rintro ⟨location, happlies, schema, hitems, hstands⟩
      obtain ⟨located, hl, rfl⟩ := (hfound.exact location).mp happlies
      have hitems : located.schema.get "items" = some schema := hitems
      have hmem : located ∈ applicable.filter (·.plain.has "items") :=
        List.mem_filter.mpr ⟨hl, by
          show (located.schema.get "items").isSome = true
          rw [hitems]
          rfl⟩
      obtain ⟨item, hitem, heq⟩ := ListEdit.mem_of_forall₂_right hforall.flip hmem
      obtain ⟨location, hlocation, heq⟩ := bind_eq_ok.mp heq
      cases heq
      rw [hitems, Option.getD_some, qualified_eq_ok, locatedSubschema_eq_some] at hlocation
      exact ⟨_, hitem, Except.ok.inj (hlocation.symm.trans hstands)⟩
    · rintro ⟨item, hitem, rfl⟩
      obtain ⟨located, hl, heq⟩ := ListEdit.mem_of_forall₂_right hforall hitem
      obtain ⟨hl, hsome⟩ := List.mem_filter.mp hl
      obtain ⟨schema, hschema⟩ := Option.isSome_iff_exists.mp hsome
      have hschema : located.schema.get "items" = some schema := hschema
      obtain ⟨location, hlocation, heq⟩ := bind_eq_ok.mp heq
      cases heq
      rw [hschema, Option.getD_some, qualified_eq_ok, locatedSubschema_eq_some] at hlocation
      exact ⟨located.location, (hfound.exact _).mpr ⟨located, hl, rfl⟩, schema, hschema, hlocation⟩

end Schemaform.Engine
