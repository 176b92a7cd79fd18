import Schemaform.Compile.Authored
import Schemaform.Compile.RegionSpec

/-!
# Compile.AutoSpec

What an `Auto` shows is a region of the generated nodes.

* `validateAutoPropertyOrder_ok`: an order names nothing twice.
* `selectAutoProperties_ok`: the selected properties, each once.
* `rootAutoRoots_rooted`, `object_rooted`, `single_rooted`: the regions the compiler takes.
-/

namespace Schemaform

open Ui

variable {generated : List GeneratedNode}

theorem findGenerated_some {test : GeneratedNode → Bool} {i : Nat} {g : GeneratedNode}
    (h : findGenerated generated test = some (i, g)) :
    generated[i]? = some g ∧ test g = true := by
  obtain ⟨⟨g', i'⟩, hfind, hswap⟩ := Option.map_eq_some_iff.mp h
  cases hswap
  have htest := List.find?_some (p := fun node : GeneratedNode × Nat => test node.1) hfind
  exact ⟨List.mem_zipIdx_iff_getElem?.mp (List.mem_of_find?_eq_some hfind), htest⟩

/-! ## Selected properties -/

theorem validateAutoPropertyOrder_ok {valueLocation : String} {order : List PropertyPosition} :
    ∀ {index : Nat} {named : List String} {seen : Bool} {named' : List String} {seen' : Bool},
      validateAutoPropertyOrder valueLocation index order named seen = .ok (named', seen') →
        order.Nodup ∧ (∀ property, .property property ∈ order → property ∉ named) ∧
          (seen = true → .remaining ∉ order) ∧
          (∀ property, property ∈ named' ↔ property ∈ named ∨ .property property ∈ order) ∧
          (seen' = true ↔ seen = true ∨ .remaining ∈ order) := by
  induction order with
  | nil =>
    intro index named seen named' seen' h
    obtain ⟨rfl, rfl⟩ := Prod.mk.inj (Except.ok.inj h)
    simp
  | cons position order ih =>
    intro index named seen named' seen' h
    cases position with
    | property property =>
      rw [validateAutoPropertyOrder] at h
      split at h
      · cases h
      · rename_i hfresh
        obtain ⟨hnodup, hapart, hremaining, hnamed, hseen⟩ := ih h
        refine ⟨List.nodup_cons.mpr ⟨?_, hnodup⟩, ?_, ?_, ?_, ?_⟩
        · intro hmem
          exact hapart property hmem List.mem_cons_self
        · intro other hother
          rcases List.mem_cons.mp hother with heq | hother
          · cases heq
            exact hfresh
          · exact fun hmem => hapart other hother (List.mem_cons_of_mem _ hmem)
        · intro hs
          simpa using hremaining hs
        · intro other
          rw [hnamed other]
          simp only [List.mem_cons, PropertyPosition.property.injEq]
          tauto
        · rw [hseen]
          simp
    | remaining =>
      rw [validateAutoPropertyOrder] at h
      split at h
      · cases h
      · rename_i hseenOnce
        obtain ⟨hnodup, hapart, hremaining, hnamed, hseen⟩ := ih h
        refine ⟨List.nodup_cons.mpr ⟨hremaining rfl, hnodup⟩, ?_, ?_, ?_, ?_⟩
        · intro other hother
          exact hapart other (by simpa using hother)
        · intro hs
          exact absurd hs hseenOnce
        · intro other
          rw [hnamed other]
          simp
        · rw [hseen]
          simp

/-- The properties of an object by name. -/
structure Named (generated : List GeneratedNode) (properties : List (String × Nat)) : Prop where
  nodup : (properties.map Prod.fst).Nodup
  name : ∀ property ∈ properties, property.1 = propertyNameAt generated property.2

namespace Named

variable {properties : List (String × Nat)}

theorem filter (h : Named generated properties) (test : String × Nat → Bool) :
    Named generated (properties.filter test) where
  nodup := h.nodup.sublist (List.filter_sublist.map _)
  name property hp := h.name property (List.mem_of_mem_filter hp)

theorem snd_nodup (h : Named generated properties) : (properties.map Prod.snd).Nodup := by
  refine List.Nodup.map_on ?_ (List.Nodup.of_map _ h.nodup)
  intro p hp q hq heq
  refine Prod.ext ?_ heq
  rw [h.name p hp, h.name q hq, heq]

theorem ordered_nodup (h : Named generated properties) {order : List PropertyPosition}
    {named : List String} {seen : Bool} (hnodup : order.Nodup)
    (hnamed : ∀ property, property ∈ named ↔ .property property ∈ order)
    (hseen : seen = true ↔ .remaining ∈ order) :
    (orderedProperties properties order named seen).Nodup ∧
      ∀ i ∈ orderedProperties properties order named seen, ∃ p ∈ properties, p.2 = i := by
  unfold orderedProperties
  dsimp only
  have hget {name : String} {i : Nat} (hi : i ∈ (SortedMap.get name properties).toList) :
      (name, i) ∈ properties := by
    rw [Option.mem_toList] at hi
    exact SortedMap.mem_of_get hi
  have hrest {i : Nat}
      (hi : i ∈ (properties.filter fun property => property.1 ∉ named).map (·.2)) :
      ∃ p ∈ properties, p.2 = i ∧ p.1 ∉ named := by
    obtain ⟨p, hp, rfl⟩ := List.mem_map.mp hi
    obtain ⟨hp, hfresh⟩ := List.mem_filter.mp hp
    exact ⟨p, hp, rfl, by simpa using hfresh⟩
  have hname {name : String} {i : Nat} (hi : i ∈ (SortedMap.get name properties).toList) :
      propertyNameAt generated i = name := (h.name _ (hget hi)).symm
  have hunnamed {i : Nat}
      (hi : i ∈ (properties.filter fun property => property.1 ∉ named).map (·.2)) :
      propertyNameAt generated i ∉ named := by
    obtain ⟨p, hp, rfl, hfresh⟩ := hrest hi
    rwa [← h.name p hp]
  have hremaining := (h.filter fun property => property.1 ∉ named).snd_nodup
  generalize hpositions : order.flatMap _ = ordered
  have hordered : ordered.Nodup := by
    rw [← hpositions]
    refine List.nodup_flatMap.mpr ⟨?_, List.Pairwise.imp_of_mem ?_ hnodup⟩
    · intro position _
      cases position with
      | property property =>
        dsimp only
        cases SortedMap.get property properties <;> simp
      | remaining => exact hremaining
    · intro p q hp hq hne i hi hi'
      -- two positions select by different names
      cases p with
      | property property =>
        cases q with
        | property other =>
          exact hne (congrArg _ ((hname hi).symm.trans (hname hi')))
        | remaining => exact hunnamed hi' (hname hi ▸ (hnamed property).mpr hp)
      | remaining =>
        cases q with
        | property other => exact hunnamed hi (hname hi' ▸ (hnamed other).mpr hq)
        | remaining => exact hne rfl
  have hmem {i : Nat} (hi : i ∈ ordered) : ∃ p ∈ properties, p.2 = i := by
    rw [← hpositions] at hi
    obtain ⟨position, _, hi⟩ := List.mem_flatMap.mp hi
    cases position with
    | property property => exact ⟨_, hget hi, rfl⟩
    | remaining =>
      obtain ⟨p, hp, heq, _⟩ := hrest hi
      exact ⟨p, hp, heq⟩
  split
  · exact ⟨hordered, fun i hi => hmem hi⟩
  · rename_i hnot
    refine ⟨List.nodup_append.mpr ⟨hordered, hremaining, ?_⟩, ?_⟩
    · intro i hi j hj heq
      subst heq
      rw [← hpositions] at hi
      obtain ⟨position, hposition, hi⟩ := List.mem_flatMap.mp hi
      cases position with
      | property property => exact hunnamed hj (hname hi ▸ (hnamed property).mpr hposition)
      | remaining => exact hnot (hseen.mpr hposition)
    · intro i hi
      rcases List.mem_append.mp hi with hi | hi
      · exact hmem hi
      · obtain ⟨p, hp, heq, _⟩ := hrest hi
        exact ⟨p, hp, heq⟩

end Named

/-- The direct properties of the object at a binding. -/
def isDirect (context : AuthoredBindingContext) (binding : Pointer) (node : GeneratedNode) : Bool :=
  node.owningArrayBinding == context.owningArrayBinding && node.binding != binding &&
    if binding.isEmpty && context.owningArrayBinding.isNone then node.parentBinding.isNone
    else node.parentBinding == some binding

theorem directGeneratedProperties_eq {context : AuthoredBindingContext} {binding : Pointer} :
    directGeneratedProperties generated context binding =
      SortedMap.ofEntries ((indicesWhere generated (isDirect context binding)).map
        fun index => (propertyNameAt generated index, index)) := by
  rw [SortedMap.ofEntries, List.foldl_map]
  rfl

theorem directGeneratedProperties_named (generated : List GeneratedNode)
    (context : AuthoredBindingContext) (binding : Pointer) :
    Named generated (directGeneratedProperties generated context binding) ∧
      ∀ p ∈ directGeneratedProperties generated context binding,
        ∃ g, generated[p.2]? = some g ∧ isDirect context binding g = true := by
  have hmem {p : String × Nat} (hp : p ∈ directGeneratedProperties generated context binding) :
      p.1 = propertyNameAt generated p.2 ∧
        p.2 ∈ indicesWhere generated (isDirect context binding) := by
    rw [directGeneratedProperties_eq] at hp
    obtain ⟨index, hindex, rfl⟩ := List.mem_map.mp ((SortedMap.ofEntries_subperm _).subset hp)
    exact ⟨rfl, hindex⟩
  refine ⟨⟨?_, fun p hp => (hmem hp).1⟩, fun p hp => mem_indicesWhere.mp (hmem hp).2⟩
  rw [directGeneratedProperties_eq]
  exact (SortedMap.sorted_iff_map.mp (SortedMap.sorted_ofEntries _)).imp ne_of_lt

theorem selectAutoProperties_ok {selection : PropertySelection} {context : AuthoredBindingContext}
    {binding : Pointer} {valueLocation : String} {named : List String} {seen : Bool}
    {selected : List Nat}
    (horder : validateAutoPropertyOrder valueLocation 0 selection.orderValue [] false =
      .ok (named, seen))
    (h : selectAutoProperties selection (directGeneratedProperties generated context binding)
      valueLocation named seen = .ok selected) :
    selected.Nodup ∧
      ∀ i ∈ selected, ∃ g, generated[i]? = some g ∧ isDirect context binding g = true := by
  obtain ⟨hnamed, hdirect⟩ := directGeneratedProperties_named generated context binding
  obtain ⟨hnodup, _, _, hnames, hseen⟩ := validateAutoPropertyOrder_ok horder
  unfold selectAutoProperties at h
  obtain ⟨_, _, h⟩ := bind_eq_ok.mp h
  obtain ⟨_, _, h⟩ := bind_eq_ok.mp h
  obtain ⟨_, _, h⟩ := bind_eq_ok.mp h
  obtain rfl := Except.ok.inj h
  have hselected : Named generated (selectedProperties selection
      (directGeneratedProperties generated context binding)) := hnamed.filter _
  have hnames : ∀ property, property ∈ named ↔ .property property ∈ selection.orderValue := by
    simpa using hnames
  obtain ⟨hresult, hmem⟩ := hselected.ordered_nodup hnodup hnames (by simpa using hseen)
  refine ⟨hresult, fun i hi => ?_⟩
  obtain ⟨p, hp, rfl⟩ := hmem i hi
  exact hdirect p (List.mem_of_mem_filter hp)

/-! ## Regions -/

section Regions

theorem not_child_of_top {r : Nat} {g : GeneratedNode} (hg : generated[r]? = some g)
    (howner : g.owningArrayBinding = none) (hparent : g.parentBinding = none) (x : Nat) :
    r ∉ generatedChildIndices generated x := by
  intro hr
  obtain ⟨p, g', _, hg', hgh⟩ := mem_generatedChildIndices.mp hr
  obtain rfl := Option.some.inj (hg.symm.trans hg')
  rcases hgh with ⟨_, hsome⟩ | ⟨_, _, hsome, _⟩
  · cases hparent.symm.trans hsome
  · cases howner.symm.trans hsome

variable (hf : GeneratedForest generated)
include hf

/-- The properties of the root, and the root itself when it is unsupported. -/
theorem rootAutoRoots_rooted {selected : List Nat} (hnodup : selected.Nodup)
    (hdirect : ∀ i ∈ selected, ∃ g, generated[i]? = some g ∧ isDirect .root [] g = true) :
    GeneratedRegion.Rooted ⟨generated, none, rootAutoRoots generated selected⟩ none := by
  have htop (r : Nat) (hr : r ∈ rootAutoRoots generated selected) : ∃ g,
      generated[r]? = some g ∧ g.owningArrayBinding = none ∧ g.parentBinding = none := by
    have hselected (hr : r ∈ selected) : ∃ g,
        generated[r]? = some g ∧ g.owningArrayBinding = none ∧ g.parentBinding = none := by
      obtain ⟨g, hg, hdirect⟩ := hdirect r hr
      simp [isDirect, AuthoredBindingContext.root] at hdirect
      exact ⟨g, hg, hdirect.1.1, hdirect.2⟩
    unfold rootAutoRoots at hr
    split at hr
    · rename_i unsupported hhead
      rcases List.mem_cons.mp hr with rfl | hr
      · obtain ⟨g, hg, htest⟩ := mem_indicesWhere.mp (List.mem_of_head? hhead)
        simp only [Bool.and_eq_true, Option.isNone_iff_eq_none, List.isEmpty_iff,
          beq_iff_eq] at htest
        refine ⟨g, hg, htest.1.1, ?_⟩
        rcases hf.last g (List.mem_of_getElem? hg) with ⟨_, hparent⟩ | ⟨name, hbinding⟩
        · exact hparent
        · rw [htest.1.2] at hbinding
          simp at hbinding
      · exact hselected hr
    · exact hselected hr
  constructor
  · exact hf
  · show (rootAutoRoots generated selected).Nodup
    unfold rootAutoRoots
    split
    · rename_i unsupported hhead
      refine List.nodup_cons.mpr ⟨fun hmem => ?_, hnodup⟩
      obtain ⟨g, hg, htest⟩ := mem_indicesWhere.mp (List.mem_of_head? hhead)
      obtain ⟨g', hg', hdirect⟩ := hdirect _ hmem
      obtain rfl := Option.some.inj (hg.symm.trans hg')
      simp [isDirect] at htest hdirect
      exact hdirect.1.2 htest.1.2
    · exact hnodup
  · rintro r (hr | hr)
    · cases hr
    · obtain ⟨g, hg, howner, _⟩ := htop r hr
      exact ⟨g, hg, howner⟩
  · intro p hp
    cases hp
  · intro _ r hr _ _ x _
    obtain ⟨g, hg, howner, hparent⟩ := htop r hr
    exact not_child_of_top hg howner hparent x
  · intro p g hp
    cases hp

/-- An object with a choice of its properties. -/
theorem object_rooted {context : AuthoredBindingContext} {p : Nat} {g : GeneratedNode}
    (hg : generated[p]? = some g) (hkind : g.kind = .autoGeneratedLayout)
    (howner : g.owningArrayBinding = context.owningArrayBinding)
    (hroot : (g.binding.isEmpty && context.owningArrayBinding.isNone) = false)
    {selected : List Nat} (hnodup : selected.Nodup)
    (hdirect : ∀ i ∈ selected,
      ∃ h, generated[i]? = some h ∧ isDirect context g.binding h = true) :
    GeneratedRegion.Rooted ⟨generated, some p, selected⟩ context.owningArrayBinding := by
  have hchild (i : Nat) (hi : i ∈ selected) : ∃ h, generated[i]? = some h ∧
      h.owningArrayBinding = context.owningArrayBinding ∧ h.parentBinding = some g.binding := by
    obtain ⟨h, hh, hdirect⟩ := hdirect i hi
    simp only [isDirect, hroot, Bool.and_eq_true, beq_iff_eq, Bool.false_eq_true,
      if_false] at hdirect
    exact ⟨h, hh, hdirect.1.1, hdirect.2⟩
  constructor
  · exact hf
  · exact hnodup
  · rintro r (hr | hr)
    · obtain rfl := Option.some.inj hr
      exact ⟨g, hg, howner⟩
    · obtain ⟨h, hh, howner', _⟩ := hchild r hr
      exact ⟨h, hh, howner'⟩
  · intro p' hp r hr
    obtain rfl := Option.some.inj hp
    obtain ⟨h, hh, howner', hparent⟩ := hchild r hr
    exact mem_generatedChildIndices.mpr ⟨g, h, hg, hh, .inl ⟨howner'.trans howner.symm, hparent⟩⟩
  · intro hp
    cases hp
  · intro p' g' hp hg'
    obtain rfl := Option.some.inj hp
    obtain rfl := Option.some.inj (hg.symm.trans hg')
    exact hkind

/-- One node and everything below it. -/
theorem single_rooted {r : Nat} {g : GeneratedNode} (hg : generated[r]? = some g) :
    GeneratedRegion.Rooted ⟨generated, none, [r]⟩ g.owningArrayBinding := by
  constructor
  · exact hf
  · exact List.nodup_singleton r
  · rintro r' (hr | hr)
    · cases hr
    · obtain rfl := List.mem_singleton.mp hr
      exact ⟨g, hg, rfl⟩
  · intro p hp
    cases hp
  · intro _ r' hr s hs x hreach hx
    obtain rfl := List.mem_singleton.mp hr
    obtain rfl := List.mem_singleton.mp hs
    obtain ⟨rank, hrank⟩ := generated_ranked hf
    have hle := Forest.Reaches.rank_le hrank hreach
    have hlt := hrank x s hx
    omega
  · intro p g' hp
    cases hp

end Regions

end Schemaform
