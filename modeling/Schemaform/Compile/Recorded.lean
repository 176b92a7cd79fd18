import Schemaform.Compile.ProjectionSpec

/-!
# Compile.Recorded

Where the entries of a projection come from, and that none is left out.

* `ObjectBelow`: the objects a walk comes to.
* `ShownBy`: the control that shows a shape.
* `Filled`: every property of an object has an entry below the object's place.
* `FromProperty`, `FromObject`, `FromArray`: what was read at the place of an entry.
* `compileProperties_records`, by induction on the depth.
* `compileGraph_records`: from the root on.
-/

namespace Schemaform.Engine

/-! ## Shapes -/

def ScalarChoices.ShownBy (choices : ScalarChoices) (control : ControlDefinition) : Prop :=
  control.kind = choices.controlKind ∧ control.choices = choices.values ∧
    control.acceptsNull = choices.values.any Value.isNull

def ScalarKind.ShownBy (kind : ScalarKind) (acceptsNull : Bool) (control : ControlDefinition) :
    Prop :=
  control.kind = kind.controlKind ∧ control.choices = [] ∧ control.acceptsNull = acceptsNull

def PropertyShape.ShownBy {σ : Type} (shape : PropertyShape σ) (control : ControlDefinition) :
    Prop :=
  match shape with
  | .choices options => options.ShownBy control
  | .scalar kind acceptsNull => kind.ShownBy acceptsNull control
  | .unsupported | .object _ | .array _ => False

def ItemShape.ShownBy {σ : Type} (shape : ItemShape σ) (control : ControlDefinition) : Prop :=
  match shape with
  | .choices options => options.ShownBy control
  | .scalar kind acceptsNull => kind.ShownBy acceptsNull control
  | .unsupported | .object _ => False

theorem choicesControl_shown (binding : Pointer) (parentBinding : Option Pointer)
    (choices : ScalarChoices) (annotations : DataSchemaAnnotations) (seed : Option Value)
    (required : Bool) :
    choices.ShownBy (choicesControl binding parentBinding choices annotations seed required) :=
  ⟨rfl, rfl, rfl⟩

theorem scalarControl_shown (binding : Pointer) (parentBinding : Option Pointer) (kind : ScalarKind)
    (acceptsNull : Bool) (annotations : DataSchemaAnnotations) (seed : Option Value)
    (required : Bool) : kind.ShownBy acceptsNull
      (scalarControl binding parentBinding kind acceptsNull annotations seed required) :=
  ⟨rfl, rfl, rfl⟩

/-! ## Properties -/

def Filled (names : List String) (binding : Pointer) (entries : List Entry) : Prop :=
  ∀ name ∈ names, ∃ e ∈ entries, e.binding = binding ++ [name]

theorem Filled.mono {names : List String} {binding : Pointer} {entries entries' : List Entry}
    (h : Filled names binding entries) (hsubset : entries ⊆ entries') :
    Filled names binding entries' := by
  intro name hname
  obtain ⟨e, he, hbinding⟩ := h name hname
  exact ⟨e, hsubset he, hbinding⟩

namespace Projection

variable (projection : Projection)

theorem subset_pushControl (control : ControlDefinition) :
    projection.entries ⊆ (projection.pushControl control).entries := fun _ he =>
  (projection.entries_pushControl control).mem_iff.mpr (List.mem_append_left _ he)

theorem subset_pushObject (object : ObjectDefinition) :
    projection.entries ⊆ (projection.pushObject object).entries := fun _ he =>
  (projection.entries_pushObject object).mem_iff.mpr (List.mem_append_left _ he)

theorem subset_pushArray (array : ArrayDefinition) :
    projection.entries ⊆ (projection.pushArray array).entries := fun _ he =>
  (projection.entries_pushArray array).mem_iff.mpr (List.mem_append_left _ he)

theorem subset_pushUnsupported (region : UnsupportedRegion) :
    projection.entries ⊆ (projection.pushUnsupported region).entries := fun _ he =>
  (projection.entries_pushUnsupported region).mem_iff.mpr (List.mem_append_left _ he)

end Projection

namespace SchemaReader

variable {σ : Type}

section Below

variable (reader : SchemaReader σ)

/-- From the object where a walk begins to those it comes to, each with its binding. -/
inductive ObjectBelow (start : Option Pointer) (first : σ) : Option Pointer → σ → Prop where
  | start : ObjectBelow start first start first
  | property {parent : Option Pointer} {object : σ} {name : String} {visits : Nat}
      {property : Property σ} {child : σ} (above : ObjectBelow start first parent object)
      (declared : name ∈ reader.propertyNames object)
      (read : reader.property object name = .ok (visits, property))
      (shape : property.shape = .object child) :
      ObjectBelow start first (some (parent.getD [] ++ [name])) child

/-- What is read at a property of an object on the walk. -/
def ReadBelow (start : Option Pointer) (first : σ) (binding : Pointer) (shape : PropertyShape σ) :
    Prop :=
  ∃ parent object name visits property, reader.ObjectBelow start first parent object ∧
    name ∈ reader.propertyNames object ∧ binding = parent.getD [] ++ [name] ∧
    reader.property object name = .ok (visits, property) ∧ property.shape = shape

def FromProperty (start : Option Pointer) (first : σ) (control : ControlDefinition) : Prop :=
  ∃ shape, reader.ReadBelow start first control.binding shape ∧ shape.ShownBy control

/-- An object of the walk, with all its properties. -/
def FromObject (start : Option Pointer) (first : σ) (entries : List Entry)
    (object : ObjectDefinition) : Prop :=
  ∃ schemas, reader.ObjectBelow start first (some object.binding) schemas ∧
    Filled (reader.propertyNames schemas) object.binding entries

/-- A template is the control of a scalar, or is walked from the object that its items are. -/
structure FromTemplate (items : Items σ) (template : ArrayItemTemplate) : Prop where
  controls : ∀ control ∈ template.controls, control.binding = [] ∧ items.shape.ShownBy control ∨
    ∃ first, items.shape = .object first ∧ reader.FromProperty (some []) first control
  objects : ∀ object ∈ template.objects, ∃ first, items.shape = .object first ∧
    reader.FromObject (some []) first template.entries object

def FromArray (start : Option Pointer) (first : σ) (array : ArrayDefinition) : Prop :=
  ∃ shape visits items, reader.ReadBelow start first array.binding (.array shape) ∧
    shape.items = .ok (visits, items) ∧ reader.FromTemplate items array.itemTemplate

end Below

variable {reader : SchemaReader σ} {walk : Walk σ}

theorem ObjectBelow.head {start : Option Pointer} {first : σ} {name : String} {visits : Nat}
    {property : Property σ} {child : σ} (declared : name ∈ reader.propertyNames first)
    (read : reader.property first name = .ok (visits, property))
    (shape : property.shape = .object child) {parent : Option Pointer} {object : σ}
    (h : reader.ObjectBelow (some (start.getD [] ++ [name])) child parent object) :
    reader.ObjectBelow start first parent object := by
  induction h with
  | start => exact .property .start declared read shape
  | property above declared' read' shape' ih => exact .property ih declared' read' shape'

theorem FromObject.mono {start : Option Pointer} {first : σ} {entries entries' : List Entry}
    {object : ObjectDefinition} (h : reader.FromObject start first entries object)
    (hsubset : entries ⊆ entries') : reader.FromObject start first entries' object := by
  obtain ⟨schemas, hbelow, hfilled⟩ := h
  exact ⟨schemas, hbelow, hfilled.mono hsubset⟩

/-! ## Walks -/

variable (reader) in
/-- What is new in a projection was read on the walk. -/
structure Records (start : Option Pointer) (first : σ) (projection projection' : Projection) :
    Prop where
  entries : projection.entries ⊆ projection'.entries
  controls : ∀ control ∈ projection'.controls, control ∈ projection.controls ∨
    reader.FromProperty start first control
  objects : ∀ object ∈ projection'.objects, object ∈ projection.objects ∨
    reader.FromObject start first projection'.entries object
  arrays : ∀ array ∈ projection'.arrays, array ∈ projection.arrays ∨
    reader.FromArray start first array
  regions : ∀ region ∈ projection.unsupportedRegions, region ∈ projection'.unsupportedRegions

variable (reader) in
/-- The walk leaves none of the properties of its first object out. -/
def WalkRecords (walk : Walk σ) : Prop :=
  ∀ first start projection projection', walk first start projection = .ok projection' →
    reader.Records start first projection projection' ∧
      Filled (reader.propertyNames first) (start.getD []) projection'.entries

namespace Records

variable {start : Option Pointer} {first : σ} {projection projection' projection'' : Projection}

theorem refl : reader.Records start first projection projection :=
  ⟨fun _ he => he, fun _ => .inl, fun _ => .inl, fun _ => .inl, fun _ hr => hr⟩

theorem trans (h : reader.Records start first projection projection')
    (h' : reader.Records start first projection' projection'') :
    reader.Records start first projection projection'' where
  entries _ he := h'.entries (h.entries he)
  controls control hc := (h'.controls control hc).elim (h.controls control) .inr
  objects object ho := (h'.objects object ho).elim
    (fun hbefore => (h.objects object hbefore).imp_right (·.mono h'.entries)) .inr
  arrays array ha := (h'.arrays array ha).elim (h.arrays array) .inr
  regions region hr := h'.regions region (h.regions region hr)

theorem of_traversal (traversal : ProjectionTraversal)
    (h : reader.Records start first { projection with traversal } projection') :
    reader.Records start first projection projection' :=
  ⟨h.entries, h.controls, h.objects, h.arrays, h.regions⟩

theorem pushControl {control : ControlDefinition}
    (h : reader.FromProperty start first control) :
    reader.Records start first projection (projection.pushControl control) where
  entries := projection.subset_pushControl control
  controls other hother := by
    rcases List.mem_append.mp hother with hother | hother
    · exact .inl hother
    · exact .inr (List.mem_singleton.mp hother ▸ h)
  objects _ := .inl
  arrays _ := .inl
  regions _ hr := hr

theorem pushArray {array : ArrayDefinition} (h : reader.FromArray start first array) :
    reader.Records start first projection (projection.pushArray array) where
  entries := projection.subset_pushArray array
  controls _ := .inl
  objects _ := .inl
  arrays other hother := by
    rcases List.mem_append.mp hother with hother | hother
    · exact .inl hother
    · exact .inr (List.mem_singleton.mp hother ▸ h)
  regions _ hr := hr

theorem pushUnsupported (region : UnsupportedRegion) :
    reader.Records start first projection (projection.pushUnsupported region) :=
  ⟨projection.subset_pushUnsupported region, fun _ => .inl, fun _ => .inl, fun _ => .inl,
    fun _ hr => List.mem_append_left _ hr⟩

/-- A walk below a property of the first object. -/
theorem pushObject (object : ObjectDefinition) {name : String} {visits : Nat}
    {property : Property σ} {child : σ} (hbinding : object.binding = start.getD [] ++ [name])
    (declared : name ∈ reader.propertyNames first)
    (read : reader.property first name = .ok (visits, property))
    (shape : property.shape = .object child)
    (h : reader.Records (some object.binding) child (projection.pushObject object) projection')
    (hfilled : Filled (reader.propertyNames child) object.binding projection'.entries) :
    reader.Records start first projection projection' := by
  rw [hbinding] at h hfilled
  have hread {binding : Pointer} {found : PropertyShape σ}
      (hr : reader.ReadBelow (some (start.getD [] ++ [name])) child binding found) :
      reader.ReadBelow start first binding found := by
    obtain ⟨parent, object, name', visits', property', hbelow, hrest⟩ := hr
    exact ⟨parent, object, name', visits', property', hbelow.head declared read shape, hrest⟩
  refine ⟨fun e he => h.entries (projection.subset_pushObject object he), fun control hc => ?_,
    fun other ho => ?_, fun array ha => ?_, h.regions⟩
  · refine (h.controls control hc).imp_right fun hfrom => ?_
    obtain ⟨found, hr, hshown⟩ := hfrom
    exact ⟨found, hread hr, hshown⟩
  · rcases h.objects other ho with hbefore | hfrom
    · rcases List.mem_append.mp hbefore with hbefore | hpushed
      · exact .inl hbefore
      · rw [List.mem_singleton.mp hpushed]
        refine .inr ⟨child, ?_, hbinding ▸ hfilled⟩
        rw [hbinding]
        exact .property .start declared read shape
    · obtain ⟨schemas, hbelow, hfilled⟩ := hfrom
      exact .inr ⟨schemas, hbelow.head declared read shape, hfilled⟩
  · refine (h.arrays array ha).imp_right fun hfrom => ?_
    obtain ⟨found, visits', items, hr, hrest⟩ := hfrom
    exact ⟨found, visits', items, hread hr, hrest⟩

end Records

theorem scalarTemplate_ok {control : ControlDefinition} {template : ArrayItemTemplate}
    (h : scalarTemplate control = .ok template) :
    template.controls = [control] ∧ template.objects = [] := by
  unfold scalarTemplate at h
  split at h
  · cases h
    exact ⟨rfl, rfl⟩
  · cases h

theorem fromTemplate_scalar {items : Items σ} {control : ControlDefinition}
    {template : ArrayItemTemplate} (h : scalarTemplate control = .ok template)
    (hbinding : control.binding = []) (hshown : items.shape.ShownBy control) :
    reader.FromTemplate items template := by
  obtain ⟨hcontrols, hobjects⟩ := scalarTemplate_ok h
  refine ⟨fun other hother => ?_, fun object hobject => ?_⟩
  · rw [hcontrols, List.mem_singleton] at hother
    exact .inl (hother ▸ ⟨hbinding, hshown⟩)
  · rw [hobjects] at hobject
    cases hobject

theorem compileItemTemplate_records (hwalk : reader.WalkRecords walk) (hgrows : WalkGrows walk)
    {items : Items σ} {traversal traversal' : ProjectionTraversal} {template : ArrayItemTemplate}
    (h : compileItemTemplate walk items traversal = .ok (traversal', some template)) :
    reader.FromTemplate items template := by
  obtain ⟨annotations, shape⟩ := items
  unfold compileItemTemplate at h
  cases shape with
  | unsupported => cases h
  | choices choices =>
    obtain ⟨found, hfound, h⟩ := bind_eq_ok.mp h
    cases h
    exact fromTemplate_scalar hfound rfl (choicesControl_shown ..)
  | scalar kind acceptsNull =>
    obtain ⟨found, hfound, h⟩ := bind_eq_ok.mp h
    cases h
    exact fromTemplate_scalar hfound rfl (scalarControl_shown ..)
  | object first =>
    obtain ⟨walked, hwalked, h⟩ := bind_eq_ok.mp h
    split at h
    · rename_i hregions
      cases h
      obtain ⟨hrecords, hfilled⟩ := hwalk _ _ _ _ hwalked
      obtain ⟨names, hgrown⟩ := hgrows _ _ _ _ hwalked
      have harrays : walked.arrays = [] := hgrown.noArrays rfl
      have hentries : walked.entries ⊆
          (⟨walked.controls, walked.objects, objectCreationSeed annotations⟩ :
            ArrayItemTemplate).entries := by
        rw [Projection.entries, harrays, List.isEmpty_iff.mp hregions]
        simp [ArrayItemTemplate.entries]
      refine ⟨fun control hcontrol => .inr ⟨first, rfl, ?_⟩, fun object hobject => ⟨first, rfl, ?_⟩⟩
      · exact (hrecords.controls control hcontrol).resolve_left List.not_mem_nil
      · rcases hrecords.objects object hobject with hroot | hfrom
        · rw [List.mem_singleton.mp hroot]
          exact ⟨first, .start, hfilled.mono hentries⟩
        · exact hfrom.mono hentries
    · cases h

theorem compileHomogeneousArray_records (hwalk : reader.WalkRecords walk) (hgrows : WalkGrows walk)
    {binding : Pointer} {parent : Option Pointer} {annotations : DataSchemaAnnotations}
    {required : Bool} {shape : ArrayShape σ} {traversal traversal' : ProjectionTraversal}
    {array : ArrayDefinition}
    (h : compileHomogeneousArray walk binding parent annotations required shape traversal =
      .ok (traversal', some array)) :
    array.binding = binding ∧ ∃ visits items, shape.items = .ok (visits, items) ∧
      reader.FromTemplate items array.itemTemplate := by
  obtain ⟨⟨visits, items⟩, hitems, h⟩ := bind_eq_ok.mp h
  obtain ⟨traversal, -, h⟩ := bind_eq_ok.mp h
  obtain ⟨⟨traversal, template⟩, htemplate, h⟩ := bind_eq_ok.mp h
  cases template with
  | none => cases h
  | some template =>
    cases h
    exact ⟨rfl, visits, items, hitems, compileItemTemplate_records hwalk hgrows htemplate⟩

theorem compileProperty_records (hwalk : reader.WalkRecords walk) (hgrows : WalkGrows walk)
    {first : σ} {start : Option Pointer} {projection projection' : Projection} {name : String}
    (declared : name ∈ reader.propertyNames first)
    (h : reader.compileProperty walk first start projection name = .ok projection') :
    reader.Records start first projection projection' ∧
      ∃ e ∈ projection'.entries, e.binding = start.getD [] ++ [name] := by
  obtain ⟨traversal, -, h⟩ := bind_eq_ok.mp h
  obtain ⟨⟨visits, property⟩, hread, h⟩ := bind_eq_ok.mp h
  obtain ⟨traversal, -, h⟩ := bind_eq_ok.mp h
  dsimp only at h
  have hbelow {shape : PropertyShape σ} (hshape : property.shape = shape) :
      reader.ReadBelow start first (start.getD [] ++ [name]) shape :=
    ⟨start, first, name, visits, property, .start, declared, rfl, hread, hshape⟩
  have hunsupported (projection : Projection) (region : UnsupportedRegion)
      (hbinding : region.binding = start.getD [] ++ [name]) :
      reader.Records start first projection (projection.pushUnsupported region) ∧
        ∃ e ∈ (projection.pushUnsupported region).entries,
          e.binding = start.getD [] ++ [name] :=
    ⟨.pushUnsupported region, region.entry, (projection.entries_pushUnsupported region).mem_iff.mpr
      (List.mem_append_right _ (List.mem_singleton_self _)), hbinding⟩
  have hcontrol (control : ControlDefinition) (projection : Projection)
      (hbinding : control.binding = start.getD [] ++ [name])
      (hfrom : reader.FromProperty start first control) :
      reader.Records start first projection (projection.pushControl control) ∧
        ∃ e ∈ (projection.pushControl control).entries, e.binding = start.getD [] ++ [name] :=
    ⟨.pushControl hfrom, control.entry, (projection.entries_pushControl control).mem_iff.mpr
      (List.mem_append_right _ (List.mem_singleton_self _)), hbinding⟩
  refine And.imp_left (Records.of_traversal traversal) ?_
  cases hshape : property.shape with
  | unsupported =>
    rw [hshape] at h
    cases h
    exact hunsupported _ _ rfl
  | choices choices =>
    rw [hshape] at h
    cases h
    exact hcontrol _ _ rfl ⟨_, hbelow hshape, choicesControl_shown ..⟩
  | scalar kind acceptsNull =>
    rw [hshape] at h
    cases h
    exact hcontrol _ _ rfl ⟨_, hbelow hshape, scalarControl_shown ..⟩
  | object child =>
    rw [hshape] at h
    obtain ⟨hrecords, hfilled⟩ := hwalk _ _ _ _ h
    have hobject := hrecords.entries ((Projection.entries_pushObject _ _).mem_iff.mpr
      (List.mem_append_right _ (List.mem_singleton_self _)))
    let object : ObjectDefinition := ⟨start.getD [] ++ [name], start, property.annotations,
      property.required, objectCreationSeed property.annotations⟩
    exact ⟨.pushObject object rfl declared hread hshape hrecords hfilled, _, hobject, rfl⟩
  | array shape =>
    rw [hshape] at h
    dsimp only at h
    split at h
    · cases h
      exact hunsupported _ _ rfl
    · obtain ⟨⟨traversal', array⟩, harray, h⟩ := bind_eq_ok.mp h
      refine And.imp_left (Records.of_traversal traversal') ?_
      cases array with
      | none =>
        cases h
        exact hunsupported _ _ rfl
      | some array =>
        cases h
        obtain ⟨hbinding, visits', items, hitems, htemplate⟩ :=
          compileHomogeneousArray_records hwalk hgrows harray
        have hpushed := (Projection.entries_pushArray { projection with traversal := traversal' }
          array).mem_iff.mpr (List.mem_append_right _ (List.mem_singleton_self _))
        exact ⟨.pushArray ⟨shape, visits', items, hbinding ▸ hbelow hshape, hitems, htemplate⟩, _,
          hpushed, hbinding⟩

theorem foldlM_compileProperty_records (hwalk : reader.WalkRecords walk) (hgrows : WalkGrows walk)
    {first : σ} {start : Option Pointer} {names : List String}
    (declared : ∀ name ∈ names, name ∈ reader.propertyNames first)
    {projection projection' : Projection}
    (h : names.foldlM (reader.compileProperty walk first start) projection = .ok projection') :
    reader.Records start first projection projection' ∧
      Filled names (start.getD []) projection'.entries := by
  induction names generalizing projection with
  | nil =>
    cases h
    exact ⟨.refl, fun name hname => absurd hname List.not_mem_nil⟩
  | cons name names ih =>
    rw [List.foldlM_cons] at h
    obtain ⟨between, hname, h⟩ := bind_eq_ok.mp h
    obtain ⟨hfirst, e, he, hbinding⟩ :=
      compileProperty_records hwalk hgrows (declared name List.mem_cons_self) hname
    obtain ⟨hrest, hfilled⟩ := ih (fun n hn => declared n (List.mem_cons_of_mem _ hn)) h
    refine ⟨hfirst.trans hrest, fun other hother => ?_⟩
    rcases List.mem_cons.mp hother with rfl | hother
    · exact ⟨e, hrest.entries he, hbinding⟩
    · exact hfilled other hother

theorem compileProperties_records (depth : Nat) :
    reader.WalkRecords (reader.compileProperties depth) := by
  induction depth with
  | zero =>
    intro first start projection projection' h
    cases h
  | succ depth ih =>
    intro first start projection projection' h
    have hnames (name : String) : name ∈ (reader.propertyNames first).dedup.insertionSort (· ≤ ·) ↔
        name ∈ reader.propertyNames first :=
      (List.perm_insertionSort _ _).mem_iff.trans List.mem_dedup
    rw [compileProperties] at h
    split at h
    · rename_i hnone
      split at h
      · cases h
        refine ⟨.refl, fun name hname => ?_⟩
        have hmem := (hnames name).mpr hname
        rw [List.isEmpty_iff.mp (Bool.and_eq_true_iff.mp hnone).1] at hmem
        cases hmem
      · cases h
    · obtain ⟨hrecords, hfilled⟩ := foldlM_compileProperty_records ih
        (compileProperties_grows depth) (fun name hname => (hnames name).mp hname) h
      exact ⟨hrecords, fun name hname => hfilled name ((hnames name).mpr hname)⟩

variable (reader) in
/-- A definition was read on the walk from the root, with all that is declared on it. -/
structure GraphRecords (root : RootShape σ) (definition : FormDefinition) : Prop where
  unsupported : root.findings = true ∨ root.object = none →
    ∃ region ∈ definition.unsupportedRegions, region.binding = []
  properties : ∀ first, root.object = some first → reader.hasProperties first = true →
    Filled (reader.propertyNames first) [] definition.entries
  controls : ∀ control ∈ definition.controls, ∃ first, root.object = some first ∧
    reader.FromProperty none first control
  objects : ∀ object ∈ definition.objects, ∃ first, root.object = some first ∧
    reader.FromObject none first definition.entries object
  arrays : ∀ array ∈ definition.arrays, ∃ first, root.object = some first ∧
    reader.FromArray none first array

/-- What compiles was read on the walk from the root. -/
theorem compileGraph_records {maxTraversal : Nat} {definition : FormDefinition}
    (h : reader.compileGraph maxTraversal = .ok definition) :
    ∃ visits root, reader.root = .ok (visits, root) ∧ reader.GraphRecords root definition := by
  obtain ⟨⟨visits, root⟩, hroot, h⟩ := bind_eq_ok.mp h
  obtain ⟨traversal, -, h⟩ := bind_eq_ok.mp h
  dsimp only at h
  refine ⟨visits, root, hroot, ?_⟩
  cases hobject : root.object with
  | none =>
    rw [hobject] at h
    cases h
    exact ⟨fun _ => ⟨_, List.mem_singleton_self _, rfl⟩, by simp [hobject], by simp, by simp,
      by simp⟩
  | some first =>
    rw [hobject] at h
    dsimp only at h
    have hregions : root.findings = true ∨ root.object = none → ∃ region ∈
        (if root.findings = true then
          [(⟨[], none, root.annotations, true⟩ : UnsupportedRegion)] else []),
        region.binding = [] := by
      intro hroot
      rw [if_pos (hroot.resolve_right (by simp [hobject]))]
      exact ⟨_, List.mem_singleton_self _, rfl⟩
    generalize (if root.findings = true then
      [(⟨[], none, root.annotations, true⟩ : UnsupportedRegion)] else []) = regions at h hregions
    split at h
    · obtain ⟨projection, hwalked, h⟩ := bind_eq_ok.mp h
      cases h
      obtain ⟨hrecords, hfilled⟩ := compileProperties_records _ _ _ _ _ hwalked
      refine ⟨fun hroot => ?_, fun other hother _ => ?_, fun control hc => ?_,
        fun object ho => ?_, fun array ha => ?_⟩
      · obtain ⟨region, hr, hbinding⟩ := hregions hroot
        exact ⟨region, hrecords.regions region hr, hbinding⟩
      · cases hobject.symm.trans hother
        exact hfilled
      · exact ⟨first, hobject, (hrecords.controls control hc).resolve_left List.not_mem_nil⟩
      · exact ⟨first, hobject, (hrecords.objects object ho).resolve_left List.not_mem_nil⟩
      · exact ⟨first, hobject, (hrecords.arrays array ha).resolve_left List.not_mem_nil⟩
    · rename_i hnone
      split at h
      · cases h
      · cases h
        refine ⟨hregions, fun other hother hsome => ?_, by simp, by simp, by simp⟩
        cases hobject.symm.trans hother
        exact absurd hsome hnone

end SchemaReader

end Schemaform.Engine
