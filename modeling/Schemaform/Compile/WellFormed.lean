import Schemaform.Compile.Annotations
import Schemaform.Compile.ProjectionSpec
import Schemaform.Engine.Seeding

/-!
# Compile.WellFormed

What compiles is well formed.

* `SchemaReader.Reads`: the values and annotations the reader hands on come from the schemas.
* `Scope.leaf_not_above`: nothing is projected below a leaf.
* `ControlDefinition.Sound`, `ObjectDefinition.Sound`, `ArrayDefinition.Sound`: what the walk
  records.
* `Walked`: everything one walk adds is sound. `compileProperties_walked`, by induction on the
  depth.
* `compileGraph_sound`, `compileGraph_wellFormed`.
-/

namespace Schemaform.Engine

variable {digest : List UInt8 → Nat}

/-! ## The reader -/

section Reads

variable {σ : Type} (digest)

def ItemShape.choiceValues : ItemShape σ → List Value
  | .choices c => c.values
  | _ => []

structure Items.Reads (items : Items σ) : Prop where
  annotated : Annotated digest items.annotations
  choices_wf : ∀ v ∈ items.shape.choiceValues, v.WF

def PropertyShape.choiceValues : PropertyShape σ → List Value
  | .choices c => c.values
  | _ => []

def PropertyShape.items : PropertyShape σ → Option (Items σ)
  | .array shape => shape.items.toOption.map Prod.snd
  | _ => none

structure Property.Reads (property : Property σ) : Prop where
  annotated : Annotated digest property.annotations
  choices_wf : ∀ v ∈ property.shape.choiceValues, v.WF
  items : ∀ items, property.shape.items = some items → items.Reads digest

/-- Options and annotations are read from well-formed schemas. -/
def SchemaReader.Reads (reader : SchemaReader σ) : Prop :=
  ∀ schemas name visits property, reader.property schemas name = .ok (visits, property) →
    property.Reads digest

end Reads

/-! ## Leaves -/

namespace Scope

variable {entries : List Entry} {e f : Entry}

theorem eq_of_binding (h : Scope entries) (he : e ∈ entries) (hf : f ∈ entries)
    (hb : e.binding = f.binding) : e = f :=
  List.inj_on_of_nodup_map h.nodup he hf hb

/-- The parent of a place below a leaf would be below it too, or the leaf itself. -/
theorem leaf_not_above (h : Scope entries) (he : e ∈ entries) (hleaf : e.isObject = false)
    (hroot : e.binding ≠ []) (hf : f ∈ entries) (t : String) (r : Pointer) :
    f.binding ≠ e.binding ++ t :: r := by
  induction hlength : r.length generalizing f t r with
  | zero =>
    obtain rfl := List.length_eq_zero_iff.mp hlength
    intro hb
    rcases h.last f hf with ⟨hnil, -⟩ | ⟨name, hlast⟩
    · simp [hnil] at hb
    · have hparent : f.parentBinding.getD [] = e.binding :=
        (List.append_inj' (hlast.symm.trans hb) rfl).1
      cases hp : f.parentBinding with
      | none =>
        rw [hp] at hparent
        exact hroot hparent.symm
      | some p =>
        obtain ⟨o, ho, hobject, rfl⟩ := h.parent f hf p hp
        rw [hp] at hparent
        obtain rfl := h.eq_of_binding ho he hparent
        rw [hleaf] at hobject
        cases hobject
  | succ n ih =>
    intro hb
    obtain ⟨u, s, rfl⟩ : ∃ u s, r = u :: s := List.exists_cons_of_length_eq_add_one hlength
    rcases h.last f hf with ⟨hnil, -⟩ | ⟨name, hlast⟩
    · simp [hnil] at hb
    · obtain ⟨s', back, hs⟩ : ∃ s' back, u :: s = s' ++ [back] :=
        ⟨_, _, (List.dropLast_append_getLast (List.cons_ne_nil u s)).symm⟩
      have hparent : f.parentBinding.getD [] = e.binding ++ t :: s' := by
        rw [hs, ← List.cons_append, ← List.append_assoc] at hb
        exact (List.append_inj' (hlast.symm.trans hb) rfl).1
      cases hp : f.parentBinding with
      | none => simp [hp] at hparent
      | some p =>
        obtain ⟨o, ho, -, rfl⟩ := h.parent f hf p hp
        rw [hp] at hparent
        refine ih ho t s' ?_ hparent
        have := congrArg List.length hs
        simp at this hlength
        omega

/-- No place is on the way to a leaf's binding. -/
theorem not_startsWith (h : Scope entries) (he : e ∈ entries) (hleaf : e.isObject = false)
    (hroot : e.binding ≠ []) (hf : f ∈ entries) (hne : f.binding ≠ e.binding) :
    f.binding.startsWith e.binding = false := by
  refine Bool.eq_false_iff.mpr fun hs => ?_
  obtain ⟨r, hr⟩ := Pointer.startsWith_iff.mp hs
  cases r with
  | nil => exact hne (by simpa using hr)
  | cons t r => exact h.leaf_not_above he hleaf hroot hf t r hr

theorem leaves_apart (h : Scope entries) {leaves : List Entry}
    (hsub : leaves.Subperm entries) (hleaf : ∀ e ∈ leaves, e.isObject = false)
    (hroot : ∀ e ∈ leaves, e.binding ≠ []) :
    (leaves.map (·.binding)).Pairwise Pointer.Apart := by
  obtain ⟨l, hperm, hl⟩ := hsub
  have hnodup : (leaves.map (·.binding)).Nodup :=
    (hperm.map _).nodup_iff.mp (h.nodup.sublist (hl.map _))
  refine hnodup.pairwise_of_forall_ne fun b hb c hc hne => ?_
  obtain ⟨e, he, rfl⟩ := List.mem_map.mp hb
  obtain ⟨f, hf, rfl⟩ := List.mem_map.mp hc
  have hmem {x : Entry} (hx : x ∈ leaves) : x ∈ entries := hl.subset (hperm.mem_iff.mpr hx)
  exact ⟨h.not_startsWith (hmem hf) (hleaf f hf) (hroot f hf) (hmem he) hne,
    h.not_startsWith (hmem he) (hleaf e he) (hroot e he) (hmem hf) hne.symm⟩

end Scope

/-! ## What the walk records -/

section Sound

variable (digest)

structure ControlDefinition.Sound (control : ControlDefinition) : Prop where
  ne_root : control.binding ≠ []
  choices_wf : ∀ v ∈ control.choices, v.WF
  annotated : Annotated digest control.annotations

structure ObjectDefinition.Sound (object : ObjectDefinition) : Prop where
  ne_root : object.binding ≠ []
  seed_wf : object.creationSeed.WF
  seed_isObject : object.creationSeed.isObject = true

structure ArrayItemTemplate.Sound (template : ArrayItemTemplate) : Prop where
  wellFormed : template.WellFormed
  annotated : ∀ c ∈ template.controls, Annotated digest c.annotations
  /-- Without an object the item is its control. -/
  scalar : template.objects = [] → ∀ c ∈ template.controls, c.binding = []

structure ArrayDefinition.Sound (array : ArrayDefinition) : Prop where
  ne_root : array.binding ≠ []
  annotated : Annotated digest array.annotations
  seed_wf : array.creationSeed.WF
  seed_isArray : array.creationSeed.isArray = true
  template : array.itemTemplate.Sound digest

end Sound

theorem objectCreationSeed_sound {annotations : DataSchemaAnnotations}
    (h : Annotated digest annotations) : (objectCreationSeed annotations).WF ∧
      (objectCreationSeed annotations).isObject = true := by
  unfold objectCreationSeed
  split
  · rename_i default hfilter
    have hmem : default ∈ annotations.defaults.filter Value.isObject := by simp [hfilter]
    exact ⟨h.defaults_wf _ (List.mem_filter.mp hmem).1, (List.mem_filter.mp hmem).2⟩
  · exact ⟨by decide, rfl⟩

theorem arrayCreationSeed_sound {annotations : DataSchemaAnnotations}
    (h : Annotated digest annotations) : (arrayCreationSeed annotations).WF ∧
      (arrayCreationSeed annotations).isArray = true := by
  unfold arrayCreationSeed
  split
  · rename_i default hfilter
    have hmem : default ∈ annotations.defaults.filter Value.isArray := by simp [hfilter]
    exact ⟨h.defaults_wf _ (List.mem_filter.mp hmem).1, (List.mem_filter.mp hmem).2⟩
  · exact ⟨by decide, rfl⟩

theorem minimalScalarSeed_wf {kind : ControlKind} {choices : List Value}
    (hchoices : ∀ v ∈ choices, v.WF) {seed : Value} (h : minimalScalarSeed kind choices = some seed) :
    seed.WF := by
  unfold minimalScalarSeed at h
  split at h
  case h_5 | h_6 =>
    rcases Option.or_eq_some_iff.mp h with h | ⟨-, h⟩
    · exact hchoices _ (List.mem_of_find?_eq_some h)
    · exact hchoices _ (List.mem_of_mem_head? h)
  all_goals
    obtain rfl := Option.some.inj h
    decide

theorem arrayItemCreationSeed_wf {kind : ControlKind} {choices : List Value} {acceptsNull : Bool}
    {annotations : DataSchemaAnnotations} (hchoices : ∀ v ∈ choices, v.WF)
    (hdefaults : ∀ v ∈ annotations.defaults, v.WF) {seed : Value}
    (h : arrayItemCreationSeed kind choices acceptsNull annotations = some seed) : seed.WF := by
  unfold arrayItemCreationSeed at h
  split at h
  · rename_i default hfilter
    obtain rfl := Option.some.inj h
    refine hdefaults _ (List.mem_of_mem_filter (p := fun value =>
      (value.isNull && acceptsNull) || scalarValueIsCompatible kind choices value) ?_)
    rw [hfilter]
    exact List.mem_singleton_self _
  · split at h
    · obtain rfl := Option.some.inj h
      decide
    · exact minimalScalarSeed_wf hchoices h

/-! ## The walk -/

/-- Everything new in a projection is sound. -/
structure Walked (digest : List UInt8 → Nat) (projection projection' : Projection) : Prop where
  controls : ∀ c ∈ projection'.controls, c ∈ projection.controls ∨ c.Sound digest
  objects : ∀ o ∈ projection'.objects, o ∈ projection.objects ∨ o.Sound
  arrays : ∀ a ∈ projection'.arrays, a ∈ projection.arrays ∨ a.Sound digest

namespace Walked

variable {projection projection' projection'' : Projection}

theorem refl : Walked digest projection projection := ⟨fun _ => .inl, fun _ => .inl, fun _ => .inl⟩

theorem trans (h : Walked digest projection projection')
    (h' : Walked digest projection' projection'') : Walked digest projection projection'' where
  controls c hc := (h'.controls c hc).elim (h.controls c) .inr
  objects o ho := (h'.objects o ho).elim (h.objects o) .inr
  arrays a ha := (h'.arrays a ha).elim (h.arrays a) .inr

theorem pushControl {control : ControlDefinition} (hc : control.Sound digest) :
    Walked digest projection (projection.pushControl control) where
  controls c hmem := by
    rcases List.mem_append.mp hmem with hmem | hmem
    · exact .inl hmem
    · exact .inr (List.mem_singleton.mp hmem ▸ hc)
  objects _ := .inl
  arrays _ := .inl

theorem pushObject {object : ObjectDefinition} (ho : object.Sound) :
    Walked digest projection (projection.pushObject object) where
  controls _ := .inl
  objects o hmem := by
    rcases List.mem_append.mp hmem with hmem | hmem
    · exact .inl hmem
    · exact .inr (List.mem_singleton.mp hmem ▸ ho)
  arrays _ := .inl

theorem pushArray {array : ArrayDefinition} (ha : array.Sound digest) :
    Walked digest projection (projection.pushArray array) where
  controls _ := .inl
  objects _ := .inl
  arrays a hmem := by
    rcases List.mem_append.mp hmem with hmem | hmem
    · exact .inl hmem
    · exact .inr (List.mem_singleton.mp hmem ▸ ha)

theorem pushUnsupported (region : UnsupportedRegion) :
    Walked digest projection (projection.pushUnsupported region) :=
  ⟨fun _ => .inl, fun _ => .inl, fun _ => .inl⟩

end Walked

/-! ## Templates -/

theorem scalarTemplate_sound {control : ControlDefinition} {template : ArrayItemTemplate}
    (hb : control.binding = []) (hr : control.required = true)
    (hchoices : ∀ v ∈ control.choices, v.WF) (ha : Annotated digest control.annotations)
    (hseed : ∀ seed, control.creationSeed = some seed → seed.WF)
    (h : scalarTemplate control = .ok template) : template.Sound digest := by
  unfold scalarTemplate at h
  split at h
  · rename_i seed hs
    cases h
    have honly {P : ControlDefinition → Prop} (hp : P control) : ∀ c ∈ [control], P c :=
      List.forall_mem_singleton.mpr hp
    exact {
      wellFormed := {
        controls_apart := List.pairwise_singleton _ _
        objects_above := by simp
        choices_wf := honly hchoices
        seed_wf := hseed seed hs
        object_seed_wf := by simp
        defaults_wf := honly ha.defaults_wf
        object_seed_isObject := by simp
        scalar_required := honly fun _ => hr
        object_required := by simp }
      annotated := honly ha
      scalar := fun _ => honly hb }
  · cases h

/-- The template of an object: what a walk added below the item. -/
theorem objectTemplate_sound {root : ObjectDefinition} {start walked : Projection}
    {template : ArrayItemTemplate} (hroot : root.required = true)
    (hseed : root.creationSeed.WF ∧ root.creationSeed.isObject = true)
    (hcontrols : start.controls = []) (hobjects : start.objects = [root])
    (h : Walked digest start walked) (hne : walked.objects ≠ [])
    (htc : template.controls = walked.controls) (hto : template.objects = walked.objects)
    (hts : template.creationSeed = root.creationSeed) (hscope : Scope template.entries) :
    template.Sound digest := by
  have hc : ∀ c ∈ template.controls, c.Sound digest := by
    intro c hc
    rcases h.controls c (htc ▸ hc) with hc | hc
    · rw [hcontrols] at hc
      cases hc
    · exact hc
  have ho : ∀ o ∈ template.objects, o = root ∨ o.Sound := by
    intro o ho
    rcases h.objects o (hto ▸ ho) with ho | ho
    · rw [hobjects] at ho
      exact .inl (List.mem_singleton.mp ho)
    · exact .inr ho
  have hentry : ∀ c ∈ template.controls, c.entry ∈ template.entries := fun c hc =>
    List.mem_append_right _ (List.mem_map_of_mem hc)
  exact {
    wellFormed := {
      controls_apart := by
        have hsub : (template.controls.map ControlDefinition.entry).Subperm template.entries :=
          (List.sublist_append_right _ _).subperm
        have hapart := hscope.leaves_apart hsub (by simp [ControlDefinition.entry])
          (List.forall_mem_map.mpr fun c hmem => (hc c hmem).ne_root)
        rwa [List.map_map] at hapart
      objects_above := by
        intro o hmem c hmem'
        have hoe : o.entry ∈ template.entries := List.mem_append_left _ (List.mem_map_of_mem hmem)
        refine hscope.not_startsWith (hentry c hmem') rfl (hc c hmem').ne_root hoe fun hb => ?_
        have := congrArg Entry.isObject (hscope.eq_of_binding hoe (hentry c hmem') hb)
        cases this
      choices_wf := fun c hmem => (hc c hmem).choices_wf
      seed_wf := hts ▸ hseed.1
      object_seed_wf := fun o hmem => (ho o hmem).elim (fun heq => heq ▸ hseed.1) (·.seed_wf)
      defaults_wf := fun c hmem => (hc c hmem).annotated.defaults_wf
      object_seed_isObject := fun o hmem =>
        (ho o hmem).elim (fun heq => heq ▸ hseed.2) (·.seed_isObject)
      scalar_required := fun c hmem hb => absurd hb (hc c hmem).ne_root
      object_required := fun o hmem hb =>
        (ho o hmem).elim (fun heq => heq ▸ hroot) (fun h => absurd hb h.ne_root) }
    annotated := fun c hmem => (hc c hmem).annotated
    scalar := fun hnil => absurd (hto.symm.trans hnil) hne }

namespace SchemaReader

variable {σ : Type} {reader : SchemaReader σ} {walk : Walk σ}

def WalkSound (digest : List UInt8 → Nat) (walk : Walk σ) : Prop :=
  ∀ schemas parent projection projection', walk schemas parent projection = .ok projection' →
    Walked digest projection projection' ∧
      (projection.objects ≠ [] → projection'.objects ≠ [])

theorem compileItemTemplate_sound (hgrows : WalkGrows walk) (hwalk : WalkSound digest walk)
    {items : Items σ} (hitems : items.Reads digest) {traversal traversal' : ProjectionTraversal}
    {template : ArrayItemTemplate}
    (h : compileItemTemplate walk items traversal = .ok (traversal', some template)) :
    template.Sound digest := by
  have hprojected := compileItemTemplate_projected hgrows h
  obtain ⟨annotations, shape⟩ := items
  unfold compileItemTemplate at h
  cases shape with
  | unsupported => cases h
  | choices c =>
    obtain ⟨t, ht, h⟩ := bind_eq_ok.mp h
    cases h
    exact scalarTemplate_sound rfl rfl hitems.choices_wf hitems.annotated
      (fun seed hs => arrayItemCreationSeed_wf hitems.choices_wf hitems.annotated.defaults_wf hs) ht
  | scalar kind acceptsNull =>
    obtain ⟨t, ht, h⟩ := bind_eq_ok.mp h
    cases h
    exact scalarTemplate_sound rfl rfl (by simp [scalarControl]) hitems.annotated
      (fun seed hs => arrayItemCreationSeed_wf (by simp) hitems.annotated.defaults_wf hs) ht
  | object schemas =>
    obtain ⟨walked, hw, h⟩ := bind_eq_ok.mp h
    split at h
    · cases h
      obtain ⟨hsound, hobjects⟩ := hwalk _ _ _ _ hw
      exact objectTemplate_sound rfl (objectCreationSeed_sound hitems.annotated) rfl rfl hsound
        (hobjects (by simp)) rfl rfl rfl hprojected.scope
    · cases h

theorem compileHomogeneousArray_sound (hgrows : WalkGrows walk) (hwalk : WalkSound digest walk)
    {binding : Pointer} (hb : binding ≠ []) {parent : Option Pointer}
    {annotations : DataSchemaAnnotations} (ha : Annotated digest annotations) {required : Bool}
    {shape : ArrayShape σ}
    (hitems : ∀ items, shape.items.toOption.map Prod.snd = some items → items.Reads digest)
    {traversal traversal' : ProjectionTraversal} {array : ArrayDefinition}
    (h : compileHomogeneousArray walk binding parent annotations required shape traversal =
      .ok (traversal', some array)) : array.Sound digest := by
  obtain ⟨⟨visits, items⟩, hshape, h⟩ := bind_eq_ok.mp h
  obtain ⟨traversal, -, h⟩ := bind_eq_ok.mp h
  obtain ⟨⟨traversal, template⟩, ht, h⟩ := bind_eq_ok.mp h
  cases template with
  | none => cases h
  | some template =>
    cases h
    have hseed := arrayCreationSeed_sound ha
    have hreads := hitems items (by rw [hshape]; rfl)
    exact ⟨hb, ha, hseed.1, hseed.2, compileItemTemplate_sound hgrows hwalk hreads ht⟩

theorem objects_ne_nil_pushObject (projection : Projection) (object : ObjectDefinition) :
    (projection.pushObject object).objects ≠ [] := by
  simp [Projection.pushObject]

theorem compileProperty_sound (hreader : reader.Reads digest) (hgrows : WalkGrows walk)
    (hwalk : WalkSound digest walk) {schemas : σ} {parent : Option Pointer}
    {projection projection' : Projection} {name : String}
    (h : reader.compileProperty walk schemas parent projection name = .ok projection') :
    Walked digest projection projection' ∧
      (projection.objects ≠ [] → projection'.objects ≠ []) := by
  obtain ⟨traversal, -, h⟩ := bind_eq_ok.mp h
  obtain ⟨⟨visits, property⟩, hproperty, h⟩ := bind_eq_ok.mp h
  obtain ⟨traversal, -, h⟩ := bind_eq_ok.mp h
  dsimp only at h
  have hreads := hreader _ _ _ _ hproperty
  obtain ⟨annotations, required, shape⟩ := property
  have hne : parent.getD [] ++ [name] ≠ [] := by simp
  suffices hstep : Walked digest { projection with traversal } projection' ∧
      (projection.objects ≠ [] → projection'.objects ≠ []) from
    ⟨⟨hstep.1.controls, hstep.1.objects, hstep.1.arrays⟩, hstep.2⟩
  cases shape with
  | unsupported =>
    cases h
    exact ⟨.pushUnsupported _, id⟩
  | choices c =>
    cases h
    exact ⟨.pushControl ⟨hne, hreads.choices_wf, hreads.annotated⟩, id⟩
  | scalar kind acceptsNull =>
    cases h
    exact ⟨.pushControl ⟨hne, by simp [scalarControl], hreads.annotated⟩, id⟩
  | object applicable =>
    obtain ⟨hsound, hobjects⟩ := hwalk _ _ _ _ h
    have hseed := objectCreationSeed_sound hreads.annotated
    exact ⟨.trans (.pushObject ⟨hne, hseed.1, hseed.2⟩) hsound,
      fun _ => hobjects (objects_ne_nil_pushObject _ _)⟩
  | array shape =>
    dsimp only at h
    split at h
    · cases h
      exact ⟨.pushUnsupported _, id⟩
    · obtain ⟨⟨traversal', array⟩, harray, h⟩ := bind_eq_ok.mp h
      suffices hpush : Walked digest { projection with traversal := traversal' } projection' ∧
          (projection.objects ≠ [] → projection'.objects ≠ []) from
        ⟨⟨hpush.1.controls, hpush.1.objects, hpush.1.arrays⟩, hpush.2⟩
      cases array with
      | none =>
        cases h
        exact ⟨.pushUnsupported _, id⟩
      | some array =>
        cases h
        have ha := compileHomogeneousArray_sound hgrows hwalk hne hreads.annotated hreads.items
          harray
        exact ⟨.pushArray ha, id⟩

theorem foldlM_compileProperty_sound (hreader : reader.Reads digest) (hgrows : WalkGrows walk)
    (hwalk : WalkSound digest walk) {schemas : σ} {parent : Option Pointer} {names : List String}
    {projection projection' : Projection}
    (h : names.foldlM (reader.compileProperty walk schemas parent) projection = .ok projection') :
    Walked digest projection projection' ∧
      (projection.objects ≠ [] → projection'.objects ≠ []) := by
  induction names generalizing projection with
  | nil =>
    cases h
    exact ⟨.refl, id⟩
  | cons name names ih =>
    rw [List.foldlM_cons] at h
    obtain ⟨between, hfirst, h⟩ := bind_eq_ok.mp h
    obtain ⟨hw, ho⟩ := compileProperty_sound hreader hgrows hwalk hfirst
    obtain ⟨hw', ho'⟩ := ih h
    exact ⟨hw.trans hw', fun hne => ho' (ho hne)⟩

theorem compileProperties_sound (hreader : reader.Reads digest) (depth : Nat) :
    WalkSound digest (reader.compileProperties depth) := by
  induction depth with
  | zero =>
    intro schemas parent projection projection' h
    cases h
  | succ depth ih =>
    intro schemas parent projection projection' h
    rw [compileProperties] at h
    split at h
    · split at h
      · cases h
        exact ⟨.refl, id⟩
      · cases h
    · exact foldlM_compileProperty_sound hreader (compileProperties_grows depth) ih h

/-! ## The definition -/

/-- Every place of a definition that compiles is sound. -/
theorem compileGraph_sound (hreader : reader.Reads digest) {maxTraversal : Nat}
    {definition : FormDefinition} (h : reader.compileGraph maxTraversal = .ok definition) :
    (∀ c ∈ definition.controls, c.Sound digest) ∧ (∀ o ∈ definition.objects, o.Sound) ∧
      ∀ a ∈ definition.arrays, a.Sound digest := by
  obtain ⟨⟨visits, root⟩, -, h⟩ := bind_eq_ok.mp h
  obtain ⟨traversal, -, h⟩ := bind_eq_ok.mp h
  dsimp only at h
  generalize (if root.findings then [(⟨[], none, root.annotations, true⟩ :
    UnsupportedRegion)] else []) = regions at h
  split at h
  · cases h
    simp
  · split at h
    · obtain ⟨projection, hp, h⟩ := bind_eq_ok.mp h
      cases h
      obtain ⟨hw, -⟩ := compileProperties_sound hreader _ _ _ _ _ hp
      refine ⟨fun c hc => ?_, fun o ho => ?_, fun a ha => ?_⟩
      · exact (hw.controls c hc).resolve_left (by simp)
      · exact (hw.objects o ho).resolve_left (by simp)
      · exact (hw.arrays a ha).resolve_left (by simp)
    · split at h
      · cases h
      · cases h
        simp

theorem compileGraph_wellFormed (hreader : reader.Reads digest) {maxTraversal : Nat}
    {definition : FormDefinition} (h : reader.compileGraph maxTraversal = .ok definition) :
    definition.WellFormed := by
  obtain ⟨hc, ho, ha⟩ := compileGraph_sound hreader h
  have hscope := (reader.compileGraph_projected h).scope
  let leaves := definition.controls.map ControlDefinition.entry ++
    definition.arrays.map ArrayDefinition.entry
  have hbindings : leaves.map (·.binding) =
      definition.controls.map (·.binding) ++ definition.arrays.map (·.binding) := by
    simp [leaves, Function.comp_def, ControlDefinition.entry, ArrayDefinition.entry]
  have hsub : leaves.Sublist definition.entries := by
    unfold FormDefinition.entries
    rw [List.append_assoc _ (definition.controls.map _)]
    exact (List.sublist_append_right _ _).trans (List.sublist_append_left _ _)
  have hleaf : ∀ e ∈ leaves, e.isObject = false := by
    simp [leaves, or_imp, forall_and, ControlDefinition.entry, ArrayDefinition.entry]
  have hroot : ∀ e ∈ leaves, e.binding ≠ [] := by
    intro e he
    rcases List.mem_append.mp he with he | he
    · obtain ⟨c, hmem, rfl⟩ := List.mem_map.mp he
      exact (hc c hmem).ne_root
    · obtain ⟨a, hmem, rfl⟩ := List.mem_map.mp he
      exact (ha a hmem).ne_root
  refine {
    leaves_apart := ?_
    leaves_ne_root := ?_
    objects_above := ?_
    objects_ne_root := fun o hmem => (ho o hmem).ne_root
    template_wf := fun a hmem => (ha a hmem).template.wellFormed
    choices_wf := fun c hmem => (hc c hmem).choices_wf
    array_seed_wf := fun a hmem => (ha a hmem).seed_wf
    object_seed_wf := fun o hmem => (ho o hmem).seed_wf
    defaults_wf := fun c hmem => (hc c hmem).annotated.defaults_wf
    array_defaults_wf := fun a hmem => (ha a hmem).annotated.defaults_wf
    array_seed_isArray := fun a hmem => (ha a hmem).seed_isArray
    object_seed_isObject := fun o hmem => (ho o hmem).seed_isObject }
  · rw [← hbindings]
    exact hscope.leaves_apart hsub.subperm hleaf hroot
  · rw [← hbindings]
    exact List.forall_mem_map.mpr hroot
  · rw [← hbindings]
    intro o hmem b hb
    obtain ⟨e, he, rfl⟩ := List.mem_map.mp hb
    have hoe : o.entry ∈ definition.entries := by
      simp [FormDefinition.entries, List.mem_map_of_mem hmem]
    refine hscope.not_startsWith (hsub.subset he) (hleaf e he) (hroot e he) hoe fun heq => ?_
    have := congrArg Entry.isObject (hscope.eq_of_binding hoe (hsub.subset he) heq)
    rw [hleaf e he] at this
    cases this

/-- The items of a multiple choice are its options. -/
theorem compileGraph_scalarItems (hreader : reader.Reads digest) {maxTraversal : Nat}
    {definition : FormDefinition} (h : reader.compileGraph maxTraversal = .ok definition) :
    ∀ a ∈ definition.arrays, a.ScalarItems := by
  intro a hmem hm
  refine ((compileGraph_sound hreader h).2.2 a hmem).template.scalar ?_
  simp only [ArrayDefinition.isMultipleChoice, Bool.and_eq_true] at hm
  exact List.isEmpty_iff.mp hm.1.2

end SchemaReader

end Schemaform.Engine
