import Schemaform.Compile.Projection
import Schemaform.Lib.Outcome

/-!
# Compile.ProjectionSpec

Where the projection puts things: every place once, each below its parent.

* `Entry`: a projected place with its parent.
* `Grown`: the entries one walk adds below its parent.
* `Scope`: places with distinct bindings, closed under parents.
* `compileProperties_grows`, by induction on the depth.
* `FormDefinition.Projected`, `compileGraph_projected`.
-/

namespace Schemaform.Engine

/-! ## Entries -/

structure Entry where
  binding : Pointer
  parentBinding : Option Pointer
  isObject : Bool
deriving DecidableEq, Repr

def ControlDefinition.entry (control : ControlDefinition) : Entry :=
  ⟨control.binding, control.parentBinding, false⟩

def ObjectDefinition.entry (object : ObjectDefinition) : Entry :=
  ⟨object.binding, object.parentBinding, true⟩

def ArrayDefinition.entry (array : ArrayDefinition) : Entry :=
  ⟨array.binding, array.parentBinding, false⟩

def UnsupportedRegion.entry (region : UnsupportedRegion) : Entry :=
  ⟨region.binding, region.parentBinding, false⟩

def ArrayItemTemplate.entries (template : ArrayItemTemplate) : List Entry :=
  template.objects.map ObjectDefinition.entry ++ template.controls.map ControlDefinition.entry

def FormDefinition.entries (definition : FormDefinition) : List Entry :=
  definition.objects.map ObjectDefinition.entry ++
    definition.controls.map ControlDefinition.entry ++
    definition.arrays.map ArrayDefinition.entry ++
    definition.unsupportedRegions.map UnsupportedRegion.entry

namespace Projection

variable (projection : Projection)

def entries : List Entry :=
  projection.objects.map ObjectDefinition.entry ++
    projection.controls.map ControlDefinition.entry ++
    projection.arrays.map ArrayDefinition.entry ++
    projection.unsupportedRegions.map UnsupportedRegion.entry

theorem entries_pushControl (control : ControlDefinition) :
    (projection.pushControl control).entries.Perm (projection.entries ++ [control.entry]) := by
  rw [List.perm_iff_count]
  intro e
  simp only [entries, pushControl, List.map_append, List.map_cons, List.map_nil, List.count_append]
  omega

theorem entries_pushObject (object : ObjectDefinition) :
    (projection.pushObject object).entries.Perm (projection.entries ++ [object.entry]) := by
  rw [List.perm_iff_count]
  intro e
  simp only [entries, pushObject, List.map_append, List.map_cons, List.map_nil, List.count_append]
  omega

theorem entries_pushArray (array : ArrayDefinition) :
    (projection.pushArray array).entries.Perm (projection.entries ++ [array.entry]) := by
  rw [List.perm_iff_count]
  intro e
  simp only [entries, pushArray, List.map_append, List.map_cons, List.map_nil, List.count_append]
  omega

theorem entries_pushUnsupported (region : UnsupportedRegion) :
    (projection.pushUnsupported region).entries.Perm (projection.entries ++ [region.entry]) := by
  rw [List.perm_iff_count]
  intro e
  simp only [entries, pushUnsupported, List.map_append, List.map_cons, List.map_nil,
    List.count_append]
  omega

end Projection

/-! ## Scopes -/

/-- What a walk over the properties `names` of the object at `parent` adds. -/
structure Grown (names : List String) (parent : Option Pointer) (added : List Entry) : Prop where
  nodup : (added.map (·.binding)).Nodup
  below : ∀ e ∈ added, ∃ name ∈ names, ∃ rest, e.binding = parent.getD [] ++ name :: rest
  last : ∀ e ∈ added, ∃ name, e.binding = e.parentBinding.getD [] ++ [name]
  parent : ∀ e ∈ added, e.parentBinding = parent ∨
    ∃ o ∈ added, o.isObject = true ∧ e.parentBinding = some o.binding

/-- Places with distinct bindings, closed under parents. -/
structure Scope (entries : List Entry) : Prop where
  nodup : (entries.map (·.binding)).Nodup
  last : ∀ e ∈ entries, e.binding = [] ∧ e.parentBinding = none ∨
    ∃ name, e.binding = e.parentBinding.getD [] ++ [name]
  parent : ∀ e ∈ entries, ∀ p, e.parentBinding = some p →
    ∃ o ∈ entries, o.isObject = true ∧ o.binding = p

theorem Scope.perm {l m : List Entry} (h : Scope l) (hp : l.Perm m) : Scope m where
  nodup := (hp.map _).nodup_iff.mp h.nodup
  last e he := h.last e (hp.mem_iff.mpr he)
  parent e he p hep := by
    obtain ⟨o, ho, hobj, hb⟩ := h.parent e (hp.mem_iff.mpr he) p hep
    exact ⟨o, hp.mem_iff.mp ho, hobj, hb⟩

namespace Grown

variable {names : List String} {parent : Option Pointer} {added added' : List Entry}

theorem nil : Grown names parent [] := ⟨.nil, by simp, by simp, by simp⟩

theorem single {name : String} (hname : name ∈ names) (isObject : Bool) :
    Grown names parent [⟨parent.getD [] ++ [name], parent, isObject⟩] where
  nodup := List.nodup_singleton _
  below e he := by
    obtain rfl := List.mem_singleton.mp he
    exact ⟨name, hname, [], rfl⟩
  last e he := by
    obtain rfl := List.mem_singleton.mp he
    exact ⟨name, rfl⟩
  parent e he := by
    obtain rfl := List.mem_singleton.mp he
    exact .inl rfl

/-- A property and the properties after it. -/
theorem append {name : String} (h : Grown [name] parent added) (h' : Grown names parent added')
    (hname : name ∉ names) : Grown (name :: names) parent (added ++ added') where
  nodup := by
    rw [List.map_append, List.nodup_append]
    refine ⟨h.nodup, h'.nodup, ?_⟩
    intro b hb b' hb' heq
    obtain ⟨e, he, hbe⟩ := List.mem_map.mp hb
    obtain ⟨e', he', hbe'⟩ := List.mem_map.mp hb'
    obtain ⟨n, hn, r, hr⟩ := h.below e he
    obtain ⟨n', hn', r', hr'⟩ := h'.below e' he'
    obtain rfl := List.mem_singleton.mp hn
    -- bindings that agree start with the same property
    rw [← hbe, ← hbe', hr, hr'] at heq
    have hcons := List.append_cancel_left heq
    rw [List.cons.injEq] at hcons
    exact hname (hcons.1 ▸ hn')
  below e he := by
    rcases List.mem_append.mp he with he | he
    · obtain ⟨n, hn, r, hr⟩ := h.below e he
      exact ⟨n, List.mem_cons.mpr (.inl (List.mem_singleton.mp hn)), r, hr⟩
    · obtain ⟨n, hn, r, hr⟩ := h'.below e he
      exact ⟨n, List.mem_cons_of_mem _ hn, r, hr⟩
  last e he := (List.mem_append.mp he).elim (h.last e) (h'.last e)
  parent e he := by
    rcases List.mem_append.mp he with he | he
    · refine (h.parent e he).imp_right ?_
      rintro ⟨o, ho, hobj⟩
      exact ⟨o, List.mem_append_left _ ho, hobj⟩
    · refine (h'.parent e he).imp_right ?_
      rintro ⟨o, ho, hobj⟩
      exact ⟨o, List.mem_append_right _ ho, hobj⟩

/-- An object and what the walk over its own properties adds. -/
theorem object {name : String} (h : Grown names (some (parent.getD [] ++ [name])) added) :
    Grown [name] parent (⟨parent.getD [] ++ [name], parent, true⟩ :: added) where
  nodup := by
    rw [List.map_cons, List.nodup_cons]
    refine ⟨?_, h.nodup⟩
    intro hb
    obtain ⟨e, he, hbe⟩ := List.mem_map.mp hb
    obtain ⟨n, -, r, hr⟩ := h.below e he
    have hlen := congrArg List.length (hbe.symm.trans hr)
    simp at hlen
  below e he := by
    refine ⟨name, List.mem_singleton_self _, ?_⟩
    rcases List.mem_cons.mp he with rfl | he
    · exact ⟨[], rfl⟩
    · obtain ⟨n, -, r, hr⟩ := h.below e he
      exact ⟨n :: r, by simpa using hr⟩
  last e he := by
    rcases List.mem_cons.mp he with rfl | he
    · exact ⟨name, rfl⟩
    · exact h.last e he
  parent e he := by
    rcases List.mem_cons.mp he with rfl | he
    · exact .inl rfl
    · refine .inr ?_
      rcases h.parent e he with hp | ⟨o, ho, hobj⟩
      · exact ⟨_, List.mem_cons_self, rfl, hp⟩
      · exact ⟨o, List.mem_cons_of_mem _ ho, hobj⟩

theorem ne_nil (h : Grown names parent added) {e : Entry} (he : e ∈ added) : e.binding ≠ [] := by
  obtain ⟨n, -, r, hr⟩ := h.below e he
  simp [hr]

/-- What the walk from the root adds, beside a finding on the root itself. -/
theorem scope (h : Grown names none added) {regions : List Entry}
    (hregions : regions = [] ∨ regions = [⟨[], none, false⟩]) : Scope (regions ++ added) := by
  have hadded : Scope added := by
    refine ⟨h.nodup, fun e he => .inr (h.last e he), ?_⟩
    intro e he p hp
    rcases h.parent e he with hnone | ⟨o, ho, hobj, hb⟩
    · rw [hnone] at hp
      cases hp
    · exact ⟨o, ho, hobj, Option.some.inj (hb.symm.trans hp)⟩
  rcases hregions with rfl | rfl
  · exact hadded
  · refine ⟨?_, ?_, ?_⟩
    · rw [List.cons_append, List.nil_append, List.map_cons, List.nodup_cons]
      refine ⟨?_, hadded.nodup⟩
      intro hb
      obtain ⟨e, he, hbe⟩ := List.mem_map.mp hb
      exact h.ne_nil he hbe
    · intro e he
      rcases List.mem_cons.mp he with rfl | he
      · exact .inl ⟨rfl, rfl⟩
      · exact hadded.last e he
    · intro e he p hp
      rcases List.mem_cons.mp he with rfl | he
      · cases hp
      · obtain ⟨o, ho, hobj, hb⟩ := hadded.parent e he p hp
        exact ⟨o, List.mem_cons_of_mem _ ho, hobj, hb⟩

/-- What the walk from an item object adds, with the item object. -/
theorem template_scope (h : Grown names (some []) added) : Scope (⟨[], none, true⟩ :: added) where
  nodup := by
    rw [List.map_cons, List.nodup_cons]
    refine ⟨?_, h.nodup⟩
    intro hb
    obtain ⟨e, he, hbe⟩ := List.mem_map.mp hb
    exact h.ne_nil he hbe
  last e he := by
    rcases List.mem_cons.mp he with rfl | he
    · exact .inl ⟨rfl, rfl⟩
    · exact .inr (h.last e he)
  parent e he p hp := by
    rcases List.mem_cons.mp he with rfl | he
    · cases hp
    · rcases h.parent e he with hroot | ⟨o, ho, hobj, hb⟩
      · exact ⟨_, List.mem_cons_self, rfl, Option.some.inj (hroot.symm.trans hp)⟩
      · exact ⟨o, List.mem_cons_of_mem _ ho, hobj, Option.some.inj (hb.symm.trans hp)⟩

theorem parent_ne_none (h : Grown names (some []) added) {e : Entry} (he : e ∈ added) :
    e.parentBinding ≠ none := by
  rcases h.parent e he with hp | ⟨o, -, -, hp⟩ <;> simp [hp]

end Grown

/-- One place of a template has no parent, the item itself. -/
structure ArrayItemTemplate.Projected (template : ArrayItemTemplate) : Prop where
  scope : Scope template.entries
  root : ∃ root, template.entries.filter (·.parentBinding.isNone) = [root] ∧ root.binding = []

structure FormDefinition.Projected (definition : FormDefinition) : Prop where
  scope : Scope definition.entries
  templates : ∀ array ∈ definition.arrays, array.itemTemplate.Projected

theorem ArrayItemTemplate.projected_scalar {control : ControlDefinition} {seed : Value}
    (hb : control.binding = []) (hp : control.parentBinding = none) :
    ArrayItemTemplate.Projected ⟨[control], [], seed⟩ where
  scope := by
    refine ⟨List.nodup_singleton _, ?_, ?_⟩
    · intro e he
      obtain rfl := List.mem_singleton.mp he
      exact .inl ⟨hb, hp⟩
    · intro e he p hep
      obtain rfl := List.mem_singleton.mp he
      exact absurd (hp.symm.trans hep) (by simp)
  root := ⟨control.entry, by simp [ArrayItemTemplate.entries, ControlDefinition.entry, hp], hb⟩

theorem ArrayItemTemplate.projected_object {template : ArrayItemTemplate} {names : List String}
    {added : List Entry} (h : Grown names (some []) added)
    (hp : template.entries.Perm (⟨[], none, true⟩ :: added)) : template.Projected where
  scope := h.template_scope.perm hp.symm
  root := by
    refine ⟨⟨[], none, true⟩, List.perm_singleton.mp ((hp.filter _).trans ?_), rfl⟩
    rw [List.filter_cons_of_pos rfl, List.filter_eq_nil_iff.mpr]
    intro e he
    have := h.parent_ne_none he
    simpa [Option.isNone_iff_eq_none] using this

/-! ## The walk -/

/-- What a walk does to the projection it is given. -/
structure Grows (names : List String) (parent : Option Pointer)
    (projection projection' : Projection) : Prop where
  entries : ∃ added, projection'.entries.Perm (projection.entries ++ added) ∧
    Grown names parent added
  arrays : ∀ array ∈ projection'.arrays,
    array ∈ projection.arrays ∨ array.itemTemplate.Projected
  inside : projection'.insideArrayTemplate = projection.insideArrayTemplate
  noArrays : projection.insideArrayTemplate = true → projection'.arrays = projection.arrays

namespace Grows

variable {names : List String} {name : String} {parent : Option Pointer}
  {projection projection' projection'' : Projection}

theorem refl : Grows names parent projection projection where
  entries := ⟨[], by simp, .nil⟩
  arrays _ ha := .inl ha
  inside := rfl
  noArrays _ := rfl

theorem trans (h : Grows [name] parent projection projection')
    (h' : Grows names parent projection' projection'') (hname : name ∉ names) :
    Grows (name :: names) parent projection projection'' where
  entries := by
    obtain ⟨added, hp, hg⟩ := h.entries
    obtain ⟨added', hp', hg'⟩ := h'.entries
    refine ⟨added ++ added', ?_, hg.append hg' hname⟩
    rw [← List.append_assoc]
    exact hp'.trans (hp.append_right _)
  arrays array ha := by
    rcases h'.arrays array ha with ha | ha
    · exact h.arrays array ha
    · exact .inr ha
  inside := h'.inside.trans h.inside
  noArrays hi := (h'.noArrays (h.inside.trans hi)).trans (h.noArrays hi)

/-- Only the traversal differs before the walk. -/
theorem of_traversal (traversal : ProjectionTraversal)
    (h : Grows names parent { projection with traversal } projection') :
    Grows names parent projection projection' := ⟨h.entries, h.arrays, h.inside, h.noArrays⟩

theorem pushControl {control : ControlDefinition}
    (hentry : control.entry = ⟨parent.getD [] ++ [name], parent, false⟩) :
    Grows [name] parent projection (projection.pushControl control) where
  entries := ⟨_, projection.entries_pushControl control,
    hentry ▸ .single (List.mem_singleton_self _) false⟩
  arrays _ ha := .inl ha
  inside := rfl
  noArrays _ := rfl

theorem pushUnsupported {region : UnsupportedRegion}
    (hentry : region.entry = ⟨parent.getD [] ++ [name], parent, false⟩) :
    Grows [name] parent projection (projection.pushUnsupported region) where
  entries := ⟨_, projection.entries_pushUnsupported region,
    hentry ▸ .single (List.mem_singleton_self _) false⟩
  arrays _ ha := .inl ha
  inside := rfl
  noArrays _ := rfl

theorem pushArray {array : ArrayDefinition} (houtside : projection.insideArrayTemplate = false)
    (hentry : array.entry = ⟨parent.getD [] ++ [name], parent, false⟩)
    (htemplate : array.itemTemplate.Projected) :
    Grows [name] parent projection (projection.pushArray array) where
  entries := ⟨_, projection.entries_pushArray array,
    hentry ▸ .single (List.mem_singleton_self _) false⟩
  arrays other ha := by
    rcases List.mem_append.mp ha with ha | ha
    · exact .inl ha
    · obtain rfl := List.mem_singleton.mp ha
      exact .inr htemplate
  inside := rfl
  noArrays hi := by simp [houtside] at hi

theorem pushObject {object : ObjectDefinition}
    (hentry : object.entry = ⟨parent.getD [] ++ [name], parent, true⟩)
    (h : Grows names (some (parent.getD [] ++ [name])) (projection.pushObject object)
      projection') :
    Grows [name] parent projection projection' where
  entries := by
    obtain ⟨added, hp, hg⟩ := h.entries
    refine ⟨object.entry :: added, ?_, hentry ▸ hg.object⟩
    have hpush := (projection.entries_pushObject object).append_right added
    rw [List.append_assoc] at hpush
    exact hp.trans hpush
  arrays := h.arrays
  inside := h.inside
  noArrays := h.noArrays

end Grows

namespace SchemaReader

variable {σ : Type} {reader : SchemaReader σ} {walk : Walk σ}

/-- Every run of the walk adds entries below its parent. -/
def WalkGrows (walk : Walk σ) : Prop :=
  ∀ schemas parent projection projection', walk schemas parent projection = .ok projection' →
    ∃ names, Grows names parent projection projection'

theorem scalarTemplate_projected {control : ControlDefinition} {template : ArrayItemTemplate}
    (hb : control.binding = []) (hp : control.parentBinding = none)
    (h : scalarTemplate control = .ok template) : template.Projected := by
  unfold scalarTemplate at h
  split at h
  · cases h
    exact ArrayItemTemplate.projected_scalar hb hp
  · cases h

theorem compileItemTemplate_projected (hwalk : WalkGrows walk) {items : Items σ}
    {traversal traversal' : ProjectionTraversal} {template : ArrayItemTemplate}
    (h : compileItemTemplate walk items traversal = .ok (traversal', some template)) :
    template.Projected := by
  unfold compileItemTemplate at h
  split at h
  · cases h
  · obtain ⟨t, ht, h⟩ := bind_eq_ok.mp h
    cases h
    exact scalarTemplate_projected rfl rfl ht
  · obtain ⟨t, ht, h⟩ := bind_eq_ok.mp h
    cases h
    exact scalarTemplate_projected rfl rfl ht
  · obtain ⟨walked, hw, h⟩ := bind_eq_ok.mp h
    split at h
    · rename_i hregions
      cases h
      obtain ⟨names, hg⟩ := hwalk _ _ _ _ hw
      obtain ⟨added, hp, hadded⟩ := hg.entries
      have harrays : walked.arrays = [] := hg.noArrays rfl
      have hunsupported : walked.unsupportedRegions = [] := List.isEmpty_iff.mp hregions
      refine ArrayItemTemplate.projected_object hadded ?_
      simpa [Projection.entries, ArrayItemTemplate.entries, harrays, hunsupported,
        ObjectDefinition.entry] using hp
    · cases h

theorem compileHomogeneousArray_projected (hwalk : WalkGrows walk) {binding : Pointer}
    {parent : Option Pointer} {annotations : DataSchemaAnnotations} {required : Bool}
    {shape : ArrayShape σ} {traversal traversal' : ProjectionTraversal} {array : ArrayDefinition}
    (h : compileHomogeneousArray walk binding parent annotations required shape traversal =
      .ok (traversal', some array)) :
    array.entry = ⟨binding, parent, false⟩ ∧ array.itemTemplate.Projected := by
  obtain ⟨⟨visits, items⟩, -, h⟩ := bind_eq_ok.mp h
  obtain ⟨traversal, -, h⟩ := bind_eq_ok.mp h
  obtain ⟨⟨traversal, template⟩, ht, h⟩ := bind_eq_ok.mp h
  cases template with
  | none => cases h
  | some template =>
    cases h
    exact ⟨rfl, compileItemTemplate_projected hwalk ht⟩

theorem compileProperty_grows (hwalk : WalkGrows walk) {schemas : σ} {parent : Option Pointer}
    {projection projection' : Projection} {name : String}
    (h : reader.compileProperty walk schemas parent projection name = .ok projection') :
    Grows [name] parent projection projection' := by
  obtain ⟨traversal, -, h⟩ := bind_eq_ok.mp h
  obtain ⟨⟨visits, property⟩, -, h⟩ := bind_eq_ok.mp h
  obtain ⟨traversal, -, h⟩ := bind_eq_ok.mp h
  dsimp only at h
  refine Grows.of_traversal traversal ?_
  split at h
  · cases h
    exact .pushUnsupported rfl
  · cases h
    exact .pushControl rfl
  · cases h
    exact .pushControl rfl
  · obtain ⟨names, hg⟩ := hwalk _ _ _ _ h
    exact .pushObject rfl hg
  · split at h
    · cases h
      exact .pushUnsupported rfl
    · rename_i houtside
      obtain ⟨⟨traversal, array⟩, ha, h⟩ := bind_eq_ok.mp h
      refine Grows.of_traversal traversal ?_
      cases array with
      | some array =>
        cases h
        obtain ⟨hentry, htemplate⟩ := compileHomogeneousArray_projected hwalk ha
        exact .pushArray (Bool.not_eq_true _ ▸ houtside) hentry htemplate
      | none =>
        cases h
        exact .pushUnsupported rfl

theorem foldlM_compileProperty_grows (hwalk : WalkGrows walk) {schemas : σ}
    {parent : Option Pointer} {names : List String} (hnodup : names.Nodup)
    {projection projection' : Projection}
    (h : names.foldlM (reader.compileProperty walk schemas parent) projection = .ok projection') :
    Grows names parent projection projection' := by
  induction names generalizing projection with
  | nil =>
    cases h
    exact .refl
  | cons name names ih =>
    rw [List.foldlM_cons] at h
    obtain ⟨between, hfirst, h⟩ := bind_eq_ok.mp h
    have hname := List.nodup_cons.mp hnodup
    exact (compileProperty_grows hwalk hfirst).trans (ih hname.2 h) hname.1

theorem compileProperties_grows (depth : Nat) : WalkGrows (reader.compileProperties depth) := by
  induction depth with
  | zero =>
    intro schemas parent projection projection' h
    cases h
  | succ depth ih =>
    intro schemas parent projection projection' h
    rw [compileProperties] at h
    split at h
    · split at h
      · cases h
        exact ⟨[], .refl⟩
      · cases h
    · have hnodup : ((reader.propertyNames schemas).dedup.insertionSort (· ≤ ·)).Nodup :=
        (List.perm_insertionSort _ _).nodup_iff.mpr (List.nodup_dedup _)
      exact ⟨_, foldlM_compileProperty_grows ih hnodup h⟩

/-- Every definition that compiles puts each place once, below its parent. -/
theorem compileGraph_projected {maxTraversal : Nat} {definition : FormDefinition}
    (h : reader.compileGraph maxTraversal = .ok definition) : definition.Projected := by
  obtain ⟨⟨visits, root⟩, -, h⟩ := bind_eq_ok.mp h
  obtain ⟨traversal, -, h⟩ := bind_eq_ok.mp h
  dsimp only at h
  have hbare {regions : List UnsupportedRegion} {annotations : DataSchemaAnnotations}
      (hregions : regions.map UnsupportedRegion.entry = [] ∨
        regions.map UnsupportedRegion.entry = [⟨[], none, false⟩]) :
      FormDefinition.Projected ⟨[], [], [], regions, annotations⟩ := by
    refine ⟨?_, by simp⟩
    have hnil : Grown [] none [] := .nil
    have := hnil.scope hregions
    simpa [FormDefinition.entries] using this
  have hfindings : (if root.findings then [(⟨[], none, root.annotations, true⟩ :
        UnsupportedRegion)] else []).map UnsupportedRegion.entry = [] ∨
      (if root.findings then [(⟨[], none, root.annotations, true⟩ :
        UnsupportedRegion)] else []).map UnsupportedRegion.entry = [⟨[], none, false⟩] := by
    cases root.findings
    · exact .inl rfl
    · exact .inr rfl
  generalize (if root.findings then [(⟨[], none, root.annotations, true⟩ :
    UnsupportedRegion)] else []) = regions at h hfindings
  split at h
  · cases h
    exact hbare (.inr rfl)
  · split at h
    · obtain ⟨projection, hp, h⟩ := bind_eq_ok.mp h
      cases h
      obtain ⟨names, hg⟩ := compileProperties_grows _ _ _ _ _ hp
      obtain ⟨added, hperm, hadded⟩ := hg.entries
      refine ⟨(hadded.scope hfindings).perm ?_, ?_⟩
      · simpa [FormDefinition.entries, Projection.entries] using hperm.symm
      · intro array ha
        rcases hg.arrays array ha with ha | ha
        · cases ha
        · exact ha
    · split at h
      · cases h
      · cases h
        exact hbare hfindings

end SchemaReader

end Schemaform.Engine
