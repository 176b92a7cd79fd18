import Schemaform.Compile.ProjectionSpec
import Schemaform.Compile.Region
import Schemaform.Lib.Marking

/-!
# Compile.Generated

The generated nodes of a projection form a forest.

* `GeneratedForest`: every place once, parents, item templates below their arrays.
* `generatedNodes_forest`, from `FormDefinition.Projected`.
* `mem_generatedChildIndices`, `generated_ranked`, `generated_uniqueParent`.
-/

namespace Schemaform

/-- The place of a generated node. -/
def GeneratedNode.place (node : GeneratedNode) : Option Pointer × Pointer :=
  (node.owningArrayBinding, node.binding)

structure GeneratedForest (generated : List GeneratedNode) : Prop where
  nodup : (generated.map GeneratedNode.place).Nodup
  last : ∀ g ∈ generated, g.binding = [] ∧ g.parentBinding = none ∨
    ∃ name, g.binding = g.parentBinding.getD [] ++ [name]
  parent : ∀ g ∈ generated, ∀ p, g.parentBinding = some p → ∃ o ∈ generated,
    o.kind = .autoGeneratedLayout ∧ o.owningArrayBinding = g.owningArrayBinding ∧ o.binding = p
  owner : ∀ g ∈ generated, ∀ a, g.owningArrayBinding = some a → ∃ array ∈ generated,
    array.owningArrayBinding = none ∧ array.semanticKind = some .homogeneousArray ∧
      array.binding = a
  item : ∀ array ∈ generated, array.semanticKind = some .homogeneousArray →
    ∃ root ∈ generated, root.owningArrayBinding = some array.binding ∧ root.parentBinding = none
  itemBinding : ∀ g ∈ generated, g.owningArrayBinding ≠ none → g.parentBinding = none →
    g.binding = []
  arrays : ∀ g ∈ generated, g.semanticKind = some .homogeneousArray →
    g.kind = .control ∧ g.owningArrayBinding = none
  objects : ∀ g ∈ generated, g.semanticKind = some .fixedObject ↔ g.kind = .autoGeneratedLayout
  unsupported : ∀ g ∈ generated, g.kind = .unsupported → g.owningArrayBinding = none
  choices : ∀ g ∈ generated, g.multipleChoice = true → g.semanticKind = some .homogeneousArray

theorem place_perm (engine : Engine.FormDefinition) :
    ((generatedNodes engine).map GeneratedNode.place).Perm
      ((engine.entries.map fun e => (none, e.binding)) ++
        engine.arrays.flatMap fun array =>
          array.itemTemplate.entries.map fun e => (some array.binding, e.binding)) := by
  have hsort := List.perm_insertionSort
    (fun left right : GeneratedNode => ((compareKeys left.key right.key).isLE : Prop))
    (engine.objects.map (generatedObject none) ++ engine.controls.map (generatedControl none) ++
      (engine.arrays.flatMap fun array => generatedArray array ::
        (array.itemTemplate.objects.map (generatedObject (some array.binding)) ++
          array.itemTemplate.controls.map (generatedControl (some array.binding)))) ++
      engine.unsupportedRegions.map generatedUnsupported)
  refine (hsort.map GeneratedNode.place).trans ?_
  have harrays := List.map_append_flatMap_perm engine.arrays
    (fun array => ((none, array.binding) : Option Pointer × Pointer)) fun array =>
      array.itemTemplate.entries.map fun e => (some array.binding, e.binding)
  have hflat : (engine.arrays.flatMap fun array => generatedArray array ::
        (array.itemTemplate.objects.map (generatedObject (some array.binding)) ++
          array.itemTemplate.controls.map (generatedControl (some array.binding)))).map
        GeneratedNode.place = engine.arrays.flatMap fun array => (none, array.binding) ::
          array.itemTemplate.entries.map fun e => (some array.binding, e.binding) := by
    rw [List.map_flatMap]
    refine List.flatMap_congr fun array _ => ?_
    simp [Engine.ArrayItemTemplate.entries, GeneratedNode.place, generatedArray, Function.comp_def,
      generatedObject, generatedControl, Engine.ObjectDefinition.entry,
      Engine.ControlDefinition.entry]
  rw [List.perm_iff_count]
  intro place
  have hcount := harrays.count_eq place
  simp only [List.map_append, hflat, List.count_append, Engine.FormDefinition.entries] at hcount ⊢
  rw [← hcount]
  simp only [List.map_map, Function.comp_def, GeneratedNode.place, generatedObject,
    generatedControl, generatedUnsupported, Engine.ObjectDefinition.entry,
    Engine.ControlDefinition.entry, Engine.ArrayDefinition.entry, Engine.UnsupportedRegion.entry]
  omega

theorem controlSemanticKind_ne_array (control : Engine.ControlDefinition) :
    (generatedControl none control).semanticKind ≠ some .homogeneousArray := by
  intro h
  have h : controlSemanticKind control = .homogeneousArray := Option.some.inj h
  unfold controlSemanticKind at h
  cases hkind : control.kind <;> rw [hkind] at h <;> cases h

theorem controlSemanticKind_ne_object (control : Engine.ControlDefinition) :
    (generatedControl none control).semanticKind ≠ some .fixedObject := by
  intro h
  have h : controlSemanticKind control = .fixedObject := Option.some.inj h
  unfold controlSemanticKind at h
  cases hkind : control.kind <;> rw [hkind] at h <;> cases h

theorem places_nodup {engine : Engine.FormDefinition} (h : engine.Projected) :
    ((generatedNodes engine).map GeneratedNode.place).Nodup := by
  have hentries : (engine.entries.map (·.binding)).Nodup := h.scope.nodup
  rw [(place_perm engine).nodup_iff, List.nodup_append]
  refine ⟨?_, List.nodup_flatMap.mpr ⟨?_, ?_⟩, ?_⟩
  · have hmap := hentries.map (f := fun b => ((none, b) : Option Pointer × Pointer))
      fun _ _ heq => (Prod.mk.inj heq).2
    rwa [List.map_map] at hmap
  · intro array ha
    have hmap := (h.templates array ha).scope.nodup.map
      (f := fun b => ((some array.binding, b) : Option Pointer × Pointer))
      fun _ _ heq => (Prod.mk.inj heq).2
    rwa [List.map_map] at hmap
  · have harrays : (engine.arrays.map (·.binding)).Nodup := by
      refine List.Nodup.sublist ?_ hentries
      have hsub : (engine.arrays.map Engine.ArrayDefinition.entry).Sublist engine.entries :=
        (List.sublist_append_right _ _).trans (List.sublist_append_left _ _)
      have hmap := hsub.map (·.binding)
      rwa [List.map_map] at hmap
    refine (List.pairwise_map.mp harrays).imp ?_
    intro a b hne place ha hb
    obtain ⟨_, _, rfl⟩ := List.mem_map.mp ha
    obtain ⟨_, _, heq⟩ := List.mem_map.mp hb
    exact hne (Option.some.inj (Prod.mk.inj heq).1).symm
  · intro place hplace other hother heq
    subst heq
    obtain ⟨_, _, rfl⟩ := List.mem_map.mp hplace
    obtain ⟨_, _, hother⟩ := List.mem_flatMap.mp hother
    obtain ⟨_, _, heq⟩ := List.mem_map.mp hother
    cases (Prod.mk.inj heq).1

theorem mem_entries_object {engine : Engine.FormDefinition} {e : Engine.Entry}
    (he : e ∈ engine.entries) (hobject : e.isObject = true) :
    ∃ o ∈ engine.objects, o.entry = e := by
  simp only [Engine.FormDefinition.entries, List.mem_append, List.mem_map] at he
  rcases he with ((⟨o, ho, rfl⟩ | ⟨_, _, rfl⟩) | ⟨_, _, rfl⟩) | ⟨_, _, rfl⟩
  · exact ⟨o, ho, rfl⟩
  all_goals cases hobject

theorem mem_template_object {template : Engine.ArrayItemTemplate} {e : Engine.Entry}
    (he : e ∈ template.entries) (hobject : e.isObject = true) :
    ∃ o ∈ template.objects, o.entry = e := by
  simp only [Engine.ArrayItemTemplate.entries, List.mem_append, List.mem_map] at he
  rcases he with ⟨o, ho, rfl⟩ | ⟨_, _, rfl⟩
  · exact ⟨o, ho, rfl⟩
  · cases hobject

/-- The entry of a generated node, in the scope of its owner. -/
theorem generated_entry {engine : Engine.FormDefinition} {g : GeneratedNode}
    (hg : g ∈ generatedNodes engine) :
    (∃ e ∈ engine.entries, g.owningArrayBinding = none ∧ g.binding = e.binding ∧
      g.parentBinding = e.parentBinding) ∨
    ∃ array ∈ engine.arrays, ∃ e ∈ array.itemTemplate.entries,
      g.owningArrayBinding = some array.binding ∧ g.binding = e.binding ∧
        g.parentBinding = e.parentBinding := by
  have hentry {e : Engine.Entry} (he : e ∈ engine.objects.map Engine.ObjectDefinition.entry ∨
      e ∈ engine.controls.map Engine.ControlDefinition.entry ∨
      e ∈ engine.arrays.map Engine.ArrayDefinition.entry ∨
      e ∈ engine.unsupportedRegions.map Engine.UnsupportedRegion.entry) : e ∈ engine.entries := by
    simpa only [Engine.FormDefinition.entries, List.mem_append, or_assoc] using he
  rcases mem_generatedNodes.mp hg with ⟨o, ho, rfl⟩ | ⟨c, hc, rfl⟩ |
    ⟨array, ha, rfl | ⟨o, ho, rfl⟩ | ⟨c, hc, rfl⟩⟩ | ⟨u, hu, rfl⟩
  · exact .inl ⟨o.entry, hentry (.inl (List.mem_map_of_mem ho)), rfl, rfl, rfl⟩
  · exact .inl ⟨c.entry, hentry (.inr (.inl (List.mem_map_of_mem hc))), rfl, rfl, rfl⟩
  · exact .inl ⟨array.entry, hentry (.inr (.inr (.inl (List.mem_map_of_mem ha)))), rfl, rfl, rfl⟩
  · exact .inr ⟨array, ha, o.entry, List.mem_append_left _ (List.mem_map_of_mem ho), rfl, rfl, rfl⟩
  · exact .inr ⟨array, ha, c.entry, List.mem_append_right _ (List.mem_map_of_mem hc), rfl, rfl, rfl⟩
  · exact .inl ⟨u.entry, hentry (.inr (.inr (.inr (List.mem_map_of_mem hu)))), rfl, rfl, rfl⟩

theorem generatedNodes_forest {engine : Engine.FormDefinition} (h : engine.Projected) :
    GeneratedForest (generatedNodes engine) where
  nodup := places_nodup h
  last g hg := by
    rcases generated_entry hg with ⟨e, he, _, hb, hp⟩ | ⟨array, ha, e, he, _, hb, hp⟩
    · rw [hb, hp]
      exact h.scope.last e he
    · rw [hb, hp]
      exact (h.templates array ha).scope.last e he
  parent g hg p hparent := by
    rcases generated_entry hg with ⟨e, he, howner, hb, hp⟩ | ⟨array, ha, e, he, howner, hb, hp⟩
    · obtain ⟨o, ho, hobject, hbinding⟩ := h.scope.parent e he p (hp ▸ hparent)
      obtain ⟨object, hmem, rfl⟩ := mem_entries_object ho hobject
      exact ⟨generatedObject none object, mem_generatedNodes.mpr (.inl ⟨object, hmem, rfl⟩), rfl,
        howner.symm, hbinding⟩
    · obtain ⟨o, ho, hobject, hbinding⟩ :=
        (h.templates array ha).scope.parent e he p (hp ▸ hparent)
      obtain ⟨object, hmem, rfl⟩ := mem_template_object ho hobject
      exact ⟨generatedObject (some array.binding) object,
        mem_generatedNodes.mpr (.inr (.inr (.inl ⟨array, ha, .inr (.inl ⟨object, hmem, rfl⟩)⟩))),
        rfl, howner.symm, hbinding⟩
  owner g hg a howner := by
    rcases generated_entry hg with ⟨e, he, hnone, _⟩ | ⟨array, ha, e, he, hsome, _⟩
    · rw [hnone] at howner
      cases howner
    · rw [hsome] at howner
      exact ⟨generatedArray array, mem_generatedNodes.mpr (.inr (.inr (.inl ⟨array, ha, .inl rfl⟩))),
        rfl, rfl, Option.some.inj howner⟩
  item array ha hkind := by
    rcases mem_generatedNodes.mp ha with ⟨o, ho, rfl⟩ | ⟨c, hc, rfl⟩ |
      ⟨definition, hd, rfl | ⟨o, ho, rfl⟩ | ⟨c, hc, rfl⟩⟩ | ⟨u, hu, rfl⟩
    · cases hkind
    · exact absurd hkind (controlSemanticKind_ne_array c)
    · obtain ⟨root, hroot, _⟩ := (h.templates definition hd).root
      have hmem : root ∈ definition.itemTemplate.entries.filter (·.parentBinding.isNone) :=
        hroot ▸ List.mem_singleton_self root
      obtain ⟨hentry, hnone⟩ := List.mem_filter.mp hmem
      rcases List.mem_append.mp hentry with hentry | hentry
      · obtain ⟨o, ho, rfl⟩ := List.mem_map.mp hentry
        exact ⟨generatedObject (some definition.binding) o,
          mem_generatedNodes.mpr (.inr (.inr (.inl ⟨definition, hd, .inr (.inl ⟨o, ho, rfl⟩)⟩))),
          rfl, Option.isNone_iff_eq_none.mp hnone⟩
      · obtain ⟨c, hc, rfl⟩ := List.mem_map.mp hentry
        exact ⟨generatedControl (some definition.binding) c,
          mem_generatedNodes.mpr (.inr (.inr (.inl ⟨definition, hd, .inr (.inr ⟨c, hc, rfl⟩)⟩))),
          rfl, Option.isNone_iff_eq_none.mp hnone⟩
    · cases hkind
    · exact absurd hkind (controlSemanticKind_ne_array c)
    · cases hkind
  itemBinding g hg howner hparent := by
    rcases generated_entry hg with ⟨e, he, hnone, _⟩ | ⟨array, ha, e, he, _, hb, hp⟩
    · exact absurd hnone howner
    · obtain ⟨root, hroot, hbinding⟩ := (h.templates array ha).root
      have hmem : e ∈ array.itemTemplate.entries.filter (·.parentBinding.isNone) :=
        List.mem_filter.mpr ⟨he, Option.isNone_iff_eq_none.mpr (hp ▸ hparent)⟩
      rw [hroot] at hmem
      rw [hb, List.mem_singleton.mp hmem, hbinding]
  arrays g hg hkind := by
    rcases mem_generatedNodes.mp hg with ⟨o, ho, rfl⟩ | ⟨c, hc, rfl⟩ |
      ⟨definition, hd, rfl | ⟨o, ho, rfl⟩ | ⟨c, hc, rfl⟩⟩ | ⟨u, hu, rfl⟩
    · cases hkind
    · exact absurd hkind (controlSemanticKind_ne_array c)
    · exact ⟨rfl, rfl⟩
    · cases hkind
    · exact absurd hkind (controlSemanticKind_ne_array c)
    · cases hkind
  objects g hg := by
    rcases mem_generatedNodes.mp hg with ⟨o, ho, rfl⟩ | ⟨c, hc, rfl⟩ |
      ⟨definition, hd, rfl | ⟨o, ho, rfl⟩ | ⟨c, hc, rfl⟩⟩ | ⟨u, hu, rfl⟩
    · exact ⟨fun _ => rfl, fun _ => rfl⟩
    · constructor
      · intro hkind
        exact absurd hkind (controlSemanticKind_ne_object c)
      · intro hkind
        cases hkind
    · constructor <;> (intro hkind; cases hkind)
    · exact ⟨fun _ => rfl, fun _ => rfl⟩
    · constructor
      · intro hkind
        exact absurd hkind (controlSemanticKind_ne_object c)
      · intro hkind
        cases hkind
    · constructor <;> (intro hkind; cases hkind)
  unsupported g hg hkind := by
    rcases mem_generatedNodes.mp hg with ⟨o, ho, rfl⟩ | ⟨c, hc, rfl⟩ |
      ⟨definition, hd, rfl | ⟨o, ho, rfl⟩ | ⟨c, hc, rfl⟩⟩ | ⟨u, hu, rfl⟩
    all_goals first | rfl | cases hkind
  choices g hg hchoice := by
    rcases mem_generatedNodes.mp hg with ⟨o, ho, rfl⟩ | ⟨c, hc, rfl⟩ |
      ⟨definition, hd, rfl | ⟨o, ho, rfl⟩ | ⟨c, hc, rfl⟩⟩ | ⟨u, hu, rfl⟩
    all_goals first | rfl | cases hchoice

/-! ## Children -/

theorem mem_indicesWhere {generated : List GeneratedNode} {test : GeneratedNode → Bool} {i : Nat} :
    i ∈ indicesWhere generated test ↔ ∃ g, generated[i]? = some g ∧ test g = true := by
  rw [indicesWhere, List.mem_filter, List.mem_range]
  constructor
  · rintro ⟨hlt, htest⟩
    rw [List.getElem?_eq_getElem hlt] at htest ⊢
    exact ⟨_, rfl, htest⟩
  · rintro ⟨g, hg, htest⟩
    refine ⟨(List.getElem?_eq_some_iff.mp hg).1, ?_⟩
    rw [hg]
    exact htest

theorem indicesWhere_nodup (generated : List GeneratedNode) (test : GeneratedNode → Bool) :
    (indicesWhere generated test).Nodup := List.nodup_range.filter _

/-- A child in the scope of its parent, or the item template of an array. -/
def Hangs (parent child : GeneratedNode) : Prop :=
  (child.owningArrayBinding = parent.owningArrayBinding ∧
    child.parentBinding = some parent.binding) ∨
  (parent.owningArrayBinding = none ∧ parent.semanticKind = some .homogeneousArray ∧
    child.owningArrayBinding = some parent.binding ∧ child.parentBinding = none)

theorem hasChild_iff {parent child : GeneratedNode} :
    parent.hasChild child = true ↔ Hangs parent child := by
  simp [GeneratedNode.hasChild, Hangs, and_assoc]

section Children

variable {generated : List GeneratedNode}

theorem mem_generatedChildIndices {i c : Nat} : c ∈ generatedChildIndices generated i ↔
    ∃ g h, generated[i]? = some g ∧ generated[c]? = some h ∧ Hangs g h := by
  unfold generatedChildIndices
  cases hi : generated[i]? with
  | none => simp
  | some g =>
    rw [List.mem_insertionSort, mem_indicesWhere]
    simp [hasChild_iff]

theorem generatedChildIndices_nodup (i : Nat) : (generatedChildIndices generated i).Nodup := by
  unfold generatedChildIndices
  split
  · exact List.nodup_nil
  · exact (List.perm_insertionSort _ _).nodup_iff.mpr (indicesWhere_nodup _ _)

theorem place_inj (hf : GeneratedForest generated) {i j : Nat} {g h : GeneratedNode}
    (hg : generated[i]? = some g) (hh : generated[j]? = some h)
    (howner : g.owningArrayBinding = h.owningArrayBinding) (hbinding : g.binding = h.binding) :
    i = j := by
  have hplace : g.place = h.place := Prod.ext howner hbinding
  have hlt := (List.getElem?_eq_some_iff.mp hg).1
  refine (List.getElem?_inj (by rwa [List.length_map]) hf.nodup).mp ?_
  rw [List.getElem?_map, List.getElem?_map, hg, hh, Option.map_some, Option.map_some, hplace]

theorem parent_unique (hf : GeneratedForest generated) {i j : Nat} {g g' h : GeneratedNode}
    (hg : generated[i]? = some g) (hg' : generated[j]? = some g') (hgh : Hangs g h)
    (hgh' : Hangs g' h) : i = j := by
  rcases hgh with ⟨howner, hparent⟩ | ⟨hnone, _, howner, hparent⟩
  · rcases hgh' with ⟨howner', hparent'⟩ | ⟨_, _, _, hparent'⟩
    · exact place_inj hf hg hg' (howner.symm.trans howner')
        (Option.some.inj (hparent.symm.trans hparent'))
    · cases hparent.symm.trans hparent'
  · rcases hgh' with ⟨_, hparent'⟩ | ⟨hnone', _, howner', _⟩
    · cases hparent.symm.trans hparent'
    · exact place_inj hf hg hg' (hnone.trans hnone'.symm)
        (Option.some.inj (howner.symm.trans howner'))

theorem generated_uniqueParent (hf : GeneratedForest generated) :
    Forest.UniqueParent (generatedChildIndices generated) where
  nodup := generatedChildIndices_nodup
  parent i j c hi hj := by
    obtain ⟨g, h, hg, hh, hgh⟩ := mem_generatedChildIndices.mp hi
    obtain ⟨g', h', hg', hh', hgh'⟩ := mem_generatedChildIndices.mp hj
    obtain rfl := Option.some.inj (hh.symm.trans hh')
    exact parent_unique hf hg hg' hgh hgh'

/-- Below an array hangs its item template alone. -/
theorem hangs_array (hf : GeneratedForest generated) {g h : GeneratedNode} (hg : g ∈ generated)
    (hh : h ∈ generated) (harray : g.semanticKind = some .homogeneousArray) (hgh : Hangs g h) :
    h.owningArrayBinding = some g.binding ∧ h.parentBinding = none := by
  rcases hgh with ⟨howner, hparent⟩ | ⟨_, _, howner, hparent⟩
  · obtain ⟨o, ho, hkind, hsame, hbinding⟩ := hf.parent h hh g.binding hparent
    obtain ⟨i, hi⟩ := List.mem_iff_getElem?.mp hg
    obtain ⟨j, hj⟩ := List.mem_iff_getElem?.mp ho
    obtain rfl := place_inj hf hi hj (howner.symm.trans hsame.symm) hbinding.symm
    obtain rfl := Option.some.inj (hi.symm.trans hj)
    cases (hf.arrays g hg harray).1.symm.trans hkind
  · exact ⟨howner, hparent⟩

theorem array_children (hf : GeneratedForest generated) {i : Nat} {g : GeneratedNode}
    (hi : generated[i]? = some g) (harray : g.semanticKind = some .homogeneousArray) :
    ∃ c, generatedChildIndices generated i = [c] := by
  have hg := List.mem_of_getElem? hi
  obtain ⟨root, hroot, howner, hparent⟩ := hf.item g hg harray
  obtain ⟨c, hc⟩ := List.mem_iff_getElem?.mp hroot
  have hchild : c ∈ generatedChildIndices generated i :=
    mem_generatedChildIndices.mpr
      ⟨g, root, hi, hc, .inr ⟨(hf.arrays g hg harray).2, harray, howner, hparent⟩⟩
  refine ⟨c, List.perm_singleton.mp ?_⟩
  refine (List.perm_ext_iff_of_nodup (generatedChildIndices_nodup i) (List.nodup_singleton c)).mpr
    fun d => ⟨fun hd => ?_, fun hd => List.mem_singleton.mp hd ▸ hchild⟩
  obtain ⟨g', h, hi', hd, hgh⟩ := mem_generatedChildIndices.mp hd
  obtain rfl := Option.some.inj (hi.symm.trans hi')
  have hh := List.mem_of_getElem? hd
  obtain ⟨howner', hparent'⟩ := hangs_array hf hg hh harray hgh
  have hbinding : h.binding = root.binding := by
    rw [hf.itemBinding h hh (by simp [howner']) hparent',
      hf.itemBinding root hroot (by simp [howner]) hparent]
  exact List.mem_singleton.mpr (place_inj hf hd hc (howner'.trans howner.symm) hbinding)

/-- How far below the root a place is, items below their array. -/
def GeneratedNode.weight (node : GeneratedNode) : Nat :=
  (node.owningArrayBinding.map fun a => a.length + 1).getD 0 + node.binding.length

theorem weight_lt (hf : GeneratedForest generated) {g h : GeneratedNode} (hh : h ∈ generated)
    (hgh : Hangs g h) : g.weight < h.weight := by
  unfold GeneratedNode.weight
  rcases hgh with ⟨howner, hparent⟩ | ⟨hnone, _, howner, hparent⟩
  · rcases hf.last h hh with ⟨_, hroot⟩ | ⟨name, hbinding⟩
    · cases hparent.symm.trans hroot
    · rw [hbinding, hparent, howner]
      simp
  · rw [hnone, howner]
    simp only [Option.map_none, Option.getD_none, Option.map_some, Option.getD_some]
    omega

theorem exists_weight_bound (generated : List GeneratedNode) :
    ∃ bound, ∀ g ∈ generated, g.weight ≤ bound := by
  induction generated with
  | nil => exact ⟨0, fun _ hg => absurd hg List.not_mem_nil⟩
  | cons g generated ih =>
    obtain ⟨bound, hbound⟩ := ih
    refine ⟨max g.weight bound, List.forall_mem_cons.mpr ⟨Nat.le_max_left _ _, ?_⟩⟩
    exact fun h hh => (hbound h hh).trans (Nat.le_max_right _ _)

theorem generated_ranked (hf : GeneratedForest generated) :
    ∃ rank, Forest.Ranked (generatedChildIndices generated) rank := by
  obtain ⟨bound, hbound⟩ := exists_weight_bound generated
  refine ⟨fun i => (generated[i]?).elim 0 fun g => bound - g.weight, fun i c hc => ?_⟩
  obtain ⟨g, h, hg, hh, hgh⟩ := mem_generatedChildIndices.mp hc
  have hlt := weight_lt hf (List.mem_of_getElem? hh) hgh
  have hle := hbound h (List.mem_of_getElem? hh)
  simp only [hg, hh, Option.elim_some]
  omega

/-- Marking follows the child lists. -/
theorem includeGeneratedSubtree_eq (levels : Nat) : ∀ index included,
    includeGeneratedSubtree generated levels index included =
      Forest.mark (generatedChildIndices generated) levels index included := by
  induction levels with
  | zero => exact fun _ _ => rfl
  | succ levels ih =>
    intro index included
    rw [includeGeneratedSubtree, Forest.mark]
    simp only [ih]

theorem child_binding_ne (hf : GeneratedForest generated) {g h : GeneratedNode}
    (hh : h ∈ generated) (hgh : Hangs g h)
    (howner : h.owningArrayBinding = g.owningArrayBinding) : h.binding ≠ [] := by
  rcases hgh with ⟨_, hparent⟩ | ⟨hnone, _, hsome, _⟩
  · rcases hf.last h hh with ⟨_, hroot⟩ | ⟨name, hbinding⟩
    · cases hparent.symm.trans hroot
    · rw [hbinding]
      simp
  · cases hnone.symm.trans (howner.symm.trans hsome)

end Children

end Schemaform
