import Schemaform.Compile.Generated
import Schemaform.Compile.Segment

/-!
# Compile.RegionSpec

What a region of the generated nodes becomes.

* `GeneratedRegion.Rooted`: roots side by side, or below the region's parent.
* `mem_included`: the roots and everything below them.
* `piece`: the child lists of a region's nodes.
* `owningArray_eq`: item nodes belong to the node of their array.
* `nodes_content`: every node shows its generated one, in the scope of its owner.
* `materializeGeneratedRegion_appended`: the nodes appended and the bindings taken.
-/

namespace Schemaform

namespace GeneratedRegion

structure Rooted (region : GeneratedRegion) (owner : Option Pointer) : Prop where
  forest : GeneratedForest region.generated
  nodup : region.roots.Nodup
  owned : ∀ r, region.parent = some r ∨ r ∈ region.roots →
    ∃ g, region.generated[r]? = some g ∧ g.owningArrayBinding = owner
  below : ∀ p, region.parent = some p →
    ∀ r ∈ region.roots, r ∈ generatedChildIndices region.generated p
  apart : region.parent = none → ∀ r ∈ region.roots, ∀ s ∈ region.roots, ∀ x,
    Forest.Reaches (generatedChildIndices region.generated) s x →
      r ∉ generatedChildIndices region.generated x
  object : ∀ p g, region.parent = some p → region.generated[p]? = some g →
    g.kind = .autoGeneratedLayout

/-- The nodes nothing else of the region is above. -/
def tops (region : GeneratedRegion) : List Nat :=
  match region.parent with
  | some parent => [parent]
  | none => region.roots

variable {region : GeneratedRegion} {owner : Option Pointer}

theorem child_lt {generated : List GeneratedNode} {x c : Nat}
    (hc : c ∈ generatedChildIndices generated x) : c < generated.length := by
  obtain ⟨_, _, _, hh, _⟩ := mem_generatedChildIndices.mp hc
  exact (List.getElem?_eq_some_iff.mp hh).1

theorem included_nodup : region.included.Nodup := List.nodup_range.filter _

theorem map_id (base : Nat) :
    region.included.map (region.id base) = List.range' base region.included.length := by
  refine List.ext_getElem (by simp) fun k hk _ => ?_
  rw [List.length_map] at hk
  rw [List.getElem_map, id, included_nodup.idxOf_getElem k hk, List.getElem_range']
  omega

theorem id_inj {base x y : Nat} (hx : x ∈ region.included) (h : region.id base x = region.id base y) :
    x = y := by
  unfold id at h
  exact (List.idxOf_inj hx).mp (by omega)

namespace Rooted

theorem lt (h : region.Rooted owner) {r : Nat} (hr : region.parent = some r ∨ r ∈ region.roots) :
    r < region.generated.length := by
  obtain ⟨_, hg, _⟩ := h.owned r hr
  exact (List.getElem?_eq_some_iff.mp hg).1

theorem marks (h : region.Rooted owner) :
    Forest.Marks (generatedChildIndices region.generated) (List.range region.generated.length)
      region.roots region.parent.toList region.marked := by
  have hparent (y : Nat) (hy : y ∈ region.parent.toList) :
      y ∈ List.range region.generated.length := by
    rw [Option.mem_toList] at hy
    exact List.mem_range.mpr (h.lt (.inl hy))
  unfold marked
  simp only [includeGeneratedSubtree_eq]
  refine Forest.marks_foldl (Forest.marks_mark ?_ region.generated.length) ?_ ?_ hparent ?_
  · intro x _ c hc
    exact List.mem_range.mpr (child_lt hc)
  · intro r hr
    exact List.mem_range.mpr (h.lt (.inr hr))
  · cases region.parent <;> simp
  · rw [List.length_range]
    omega

theorem not_reaches_parent (h : region.Rooted owner) {p r : Nat} (hp : region.parent = some p)
    (hr : r ∈ region.roots) :
    ¬ Forest.Reaches (generatedChildIndices region.generated) r p := by
  intro hreach
  obtain ⟨rank, hrank⟩ := generated_ranked h.forest
  have hlt := hrank p r (h.below p hp r hr)
  have hle := Forest.Reaches.rank_le hrank hreach
  omega

theorem mem_included (h : region.Rooted owner) {x : Nat} : x ∈ region.included ↔
    region.parent = some x ∨
      ∃ r ∈ region.roots, Forest.Reaches (generatedChildIndices region.generated) r x := by
  have hmarks := h.marks
  have hmem : x ∈ region.included ↔ x ∈ region.marked := by
    rw [included, List.mem_filter, decide_eq_true_eq]
    exact ⟨And.right, fun hx => ⟨hmarks.bounded x hx, hx⟩⟩
  rw [hmem]
  clear hmem
  constructor
  · intro hx
    refine (hmarks.reached x hx).imp_left ?_
    intro hx
    exact Option.mem_toList.mp hx
  · rintro (hp | ⟨r, hr, hreach⟩)
    · exact hmarks.kept x (Option.mem_toList.mpr hp)
    · induction hreach with
      | refl => exact hmarks.started r hr
      | @tail y z hry hyz ih =>
        refine hmarks.closed y ih ?_ z hyz
        intro hy
        exact h.not_reaches_parent (Option.mem_toList.mp hy) hr hry

theorem root_included (h : region.Rooted owner) {r : Nat} (hr : r ∈ region.roots) :
    r ∈ region.included := h.mem_included.mpr (.inr ⟨r, hr, .refl⟩)

theorem child_included (h : region.Rooted owner) {x c : Nat} (hx : x ∈ region.included)
    (hne : region.parent ≠ some x) (hc : c ∈ generatedChildIndices region.generated x) :
    c ∈ region.included := by
  rcases h.mem_included.mp hx with hp | ⟨r, hr, hreach⟩
  · exact absurd hp hne
  · exact h.mem_included.mpr (.inr ⟨r, hr, hreach.tail hc⟩)

theorem children_parent (h : region.Rooted owner) {p : Nat} (hp : region.parent = some p) :
    region.children p = region.roots := by
  rw [children, if_pos hp.symm, List.filter_eq_self]
  intro r hr
  exact decide_eq_true (h.root_included hr)

theorem children_eq (h : region.Rooted owner) {x : Nat} (hx : x ∈ region.included)
    (hne : region.parent ≠ some x) :
    region.children x = generatedChildIndices region.generated x := by
  rw [children, if_neg (Ne.symm hne), List.filter_eq_self]
  intro c hc
  exact decide_eq_true (h.child_included hx hne hc)

theorem mem_children (h : region.Rooted owner) {x c : Nat} (hx : x ∈ region.included)
    (hc : c ∈ region.children x) :
    c ∈ generatedChildIndices region.generated x ∧ c ∈ region.included := by
  by_cases hp : region.parent = some x
  · rw [h.children_parent hp] at hc
    exact ⟨h.below x hp c hc, h.root_included hc⟩
  · rw [h.children_eq hx hp] at hc
    exact ⟨hc, h.child_included hx hp hc⟩

theorem top_included (h : region.Rooted owner) {r : Nat} (hr : r ∈ region.tops) :
    r ∈ region.included := by
  unfold tops at hr
  split at hr
  · rename_i p hp
    obtain rfl := List.mem_singleton.mp hr
    exact h.mem_included.mpr (.inl hp)
  · exact h.root_included hr

theorem tops_nodup (h : region.Rooted owner) : region.tops.Nodup := by
  unfold tops
  split
  · exact List.nodup_singleton _
  · exact h.nodup

theorem top_apart (h : region.Rooted owner) {r x : Nat} (hr : r ∈ region.tops)
    (hx : x ∈ region.included) : r ∉ region.children x := by
  intro hc
  obtain ⟨rank, hrank⟩ := generated_ranked h.forest
  have hchild := (h.mem_children hx hc).1
  unfold tops at hr
  split at hr
  · rename_i p hp
    obtain rfl := List.mem_singleton.mp hr
    have hlt := hrank x r hchild
    rcases h.mem_included.mp hx with hpx | ⟨s, hs, hreach⟩
    · obtain rfl := Option.some.inj (hp.symm.trans hpx)
      omega
    · exact h.not_reaches_parent hp hs (hreach.tail hchild)
  · rename_i hp
    rcases h.mem_included.mp hx with hpx | ⟨s, hs, hreach⟩
    · cases hp.symm.trans hpx
    · exact h.apart hp r hr s hs x hreach hchild

theorem top_or_child (h : region.Rooted owner) {x : Nat} (hx : x ∈ region.included) :
    x ∈ region.tops ∨ ∃ p ∈ region.included, x ∈ region.children p := by
  unfold tops
  rcases h.mem_included.mp hx with hp | ⟨r, hr, hreach⟩
  · simp [hp]
  rcases Relation.ReflTransGen.cases_tail hreach with rfl | ⟨y, hry, hyx⟩
  · cases hp : region.parent with
    | none => exact .inl hr
    | some p =>
      refine .inr ⟨p, h.mem_included.mpr (.inl hp), ?_⟩
      rw [h.children_parent hp]
      exact hr
  · have hy : y ∈ region.included := h.mem_included.mpr (.inr ⟨r, hr, hry⟩)
    refine .inr ⟨y, hy, ?_⟩
    rw [h.children_eq hy fun hp => h.not_reaches_parent hp hr hry]
    exact hyx

theorem piece (h : region.Rooted owner) (base : Nat) :
    Forest.Piece base
      (region.included.map fun x => (region.children x).map (region.id base))
      (region.tops.map (region.id base)) := by
  obtain ⟨rank, hrank⟩ := generated_ranked h.forest
  have hunique := generated_uniqueParent h.forest
  refine .of_selection rank included_nodup (map_id base) h.tops_nodup
    (fun r hr => h.top_included hr) ?_ ?_ (fun r hr x hx => h.top_apart hr hx)
    (fun x hx => h.top_or_child hx) ?_
  · intro x hx
    refine ⟨?_, fun c hc => (h.mem_children hx hc).2⟩
    by_cases hp : region.parent = some x
    · rw [h.children_parent hp]
      exact h.nodup
    · rw [h.children_eq hx hp]
      exact hunique.nodup x
  · intro x hx y hy c hcx hcy
    exact hunique.parent x y c (h.mem_children hx hcx).1 (h.mem_children hy hcy).1
  · intro x hx c hc
    exact hrank x c (h.mem_children hx hc).1

/-! ## Owners -/

/-- In an item template everything belongs to the array of the template. -/
theorem owned_included {array : Pointer} (h : region.Rooted (some array)) {x : Nat}
    (hx : x ∈ region.included) :
    ∃ g, region.generated[x]? = some g ∧ g.owningArrayBinding = some array := by
  rcases h.mem_included.mp hx with hp | ⟨r, hr, hreach⟩
  · exact h.owned x (.inl hp)
  · clear hx
    induction hreach with
    | refl => exact h.owned r (.inr hr)
    | tail _ hyz ih =>
      obtain ⟨g, hg, howner⟩ := ih
      obtain ⟨g', c, hg', hc, hangs⟩ := mem_generatedChildIndices.mp hyz
      obtain rfl := Option.some.inj (hg.symm.trans hg')
      rcases hangs with ⟨hsame, _⟩ | ⟨hnone, _⟩
      · exact ⟨c, hc, hsame.trans howner⟩
      · cases hnone.symm.trans howner

/-- Item nodes come with the node of their array. -/
theorem array_included (h : region.Rooted none) {x : Nat} (hx : x ∈ region.included)
    {g : GeneratedNode} (hg : region.generated[x]? = some g) {a : Pointer}
    (ha : g.owningArrayBinding = some a) :
    ∃ i ∈ region.included, ∃ array, region.generated[i]? = some array ∧
      array.owningArrayBinding = none ∧ array.semanticKind = some .homogeneousArray ∧
        array.binding = a := by
  have hroot {r : Nat} (hr : region.parent = some r ∨ r ∈ region.roots) {g : GeneratedNode}
      (hg : region.generated[r]? = some g) : g.owningArrayBinding = none := by
    obtain ⟨g', hg', hnone⟩ := h.owned r hr
    obtain rfl := Option.some.inj (hg.symm.trans hg')
    exact hnone
  rcases h.mem_included.mp hx with hp | ⟨r, hr, hreach⟩
  · cases (hroot (.inl hp) hg).symm.trans ha
  · clear hx
    induction hreach generalizing g with
    | refl => cases (hroot (.inr hr) hg).symm.trans ha
    | @tail y z hry hyz ih =>
      obtain ⟨g', c, hg', hc, hangs⟩ := mem_generatedChildIndices.mp hyz
      obtain rfl := Option.some.inj (hg.symm.trans hc)
      rcases hangs with ⟨hsame, _⟩ | ⟨hnone, harray, howner, _⟩
      · exact ih hg' (hsame.symm.trans ha)
      · refine ⟨y, h.mem_included.mpr (.inr ⟨r, hr, hry⟩), g', hg', hnone, harray, ?_⟩
        exact Option.some.inj (howner.symm.trans ha)

end Rooted

theorem indicesWhere_head {generated : List GeneratedNode} (hf : GeneratedForest generated)
    {i : Nat} {array : GeneratedNode} (hi : generated[i]? = some array)
    (hnone : array.owningArrayBinding = none)
    (harray : array.semanticKind = some .homogeneousArray) :
    (indicesWhere generated fun candidate =>
      candidate.owningArrayBinding.isNone && candidate.binding == array.binding &&
        candidate.semanticKind == some .homogeneousArray).head? = some i := by
  have hmem : i ∈ indicesWhere generated fun candidate =>
      candidate.owningArrayBinding.isNone && candidate.binding == array.binding &&
        candidate.semanticKind == some .homogeneousArray :=
    mem_indicesWhere.mpr ⟨array, hi, by simp [hnone, harray]⟩
  have hne := List.ne_nil_of_mem hmem
  rw [List.head?_eq_some_head hne]
  obtain ⟨candidate, hc, htest⟩ := mem_indicesWhere.mp (List.head_mem hne)
  simp only [Bool.and_eq_true, Option.isNone_iff_eq_none, beq_iff_eq] at htest
  rw [place_inj hf hc hi (htest.1.1.trans hnone.symm) htest.1.2]

variable {context : AuthoredBindingContext} {base : Nat}

theorem owningArray_none {g : GeneratedNode} (h : g.owningArrayBinding = none) :
    region.owningArray context base g = none := by
  rw [owningArray, h]
  rfl

theorem owningArray_template {g : GeneratedNode} {binding : Pointer} {array : Nat}
    (h : g.owningArrayBinding = some binding) (hcontext : context.owningArray = some array) :
    region.owningArray context base g = some array := by
  simp only [owningArray, h, hcontext, Option.bind_some]

theorem owningArray_root (base : Nat) (h : region.Rooted none) (hcontext : context.owningArray = none)
    {x : Nat} (hx : x ∈ region.included) {g : GeneratedNode}
    (hg : region.generated[x]? = some g) {a : Pointer} (ha : g.owningArrayBinding = some a) :
    ∃ i ∈ region.included, ∃ array, region.generated[i]? = some array ∧
      array.owningArrayBinding = none ∧ array.semanticKind = some .homogeneousArray ∧
        array.binding = a ∧ region.owningArray context base g = some (region.id base i) := by
  obtain ⟨i, hi, array, harray, hnone, hkind, rfl⟩ := h.array_included hx hg ha
  refine ⟨i, hi, array, harray, hnone, hkind, rfl, ?_⟩
  simp only [owningArray, ha, hcontext, Option.bind_some,
    indicesWhere_head h.forest harray hnone hkind]
  simp [hi]

theorem owningArray_eq {g : GeneratedNode} (h : g.owningArrayBinding = context.owningArrayBinding)
    (hscope : context.owningArray = none ↔ context.owningArrayBinding = none) :
    region.owningArray context base g = context.owningArray := by
  cases hcontext : context.owningArrayBinding with
  | none => rw [owningArray_none (h.trans hcontext), hscope.mpr hcontext]
  | some binding =>
    obtain ⟨array, harray⟩ := Option.ne_none_iff_exists'.mp
      (mt hscope.mp (hcontext ▸ Option.some_ne_none binding))
    rw [owningArray_template (h.trans hcontext) harray, harray]

/-! ## Nodes -/

/-- The included generated nodes with their indices. -/
def entries (region : GeneratedRegion) : List (Nat × GeneratedNode) :=
  region.included.filterMap fun x => (region.generated[x]?).map (x, ·)

/-- The node of an entry. -/
def node (region : GeneratedRegion) (context : AuthoredBindingContext) (base : Nat)
    (entry : Nat × GeneratedNode) : CompiledNode :=
  entry.2.definitionNode (region.id base entry.1) (region.owningArray context base entry.2)
    ((region.children entry.1).map (region.id base))

def nodes (region : GeneratedRegion) (context : AuthoredBindingContext) (base : Nat) :
    List CompiledNode := region.entries.map (region.node context base)

theorem mem_entries {x : Nat} {g : GeneratedNode} : (x, g) ∈ region.entries ↔
    x ∈ region.included ∧ region.generated[x]? = some g := by
  simp only [entries, List.mem_filterMap, Option.map_eq_some_iff, Prod.mk.injEq]
  constructor
  · rintro ⟨y, hy, g', hg, rfl, rfl⟩
    exact ⟨hy, hg⟩
  · rintro ⟨hx, hg⟩
    exact ⟨x, hx, g, hg, rfl, rfl⟩

theorem entries_fst : region.entries.map Prod.fst = region.included := by
  have hmem (x : Nat) (hx : x ∈ region.included) : ((region.generated[x]?).map (x, ·)).map Prod.fst
      = some x := by
    have hlt := List.mem_range.mp (List.mem_filter.mp hx).1
    rw [List.getElem?_eq_getElem hlt]
    rfl
  rw [entries, List.map_filterMap]
  exact (List.filterMap_congr hmem).trans List.filterMap_some

theorem entries_nodup : region.entries.Nodup :=
  List.Nodup.of_map Prod.fst (entries_fst ▸ included_nodup)

theorem entry_of_included {x : Nat} (hx : x ∈ region.included) :
    ∃ g, (x, g) ∈ region.entries := by
  rw [← entries_fst] at hx
  obtain ⟨⟨y, g⟩, he, rfl⟩ := List.mem_map.mp hx
  exact ⟨g, he⟩

section Nodes

variable (hscope : context.owningArray = none ↔ context.owningArrayBinding = none)
include hscope

theorem childOwner_eq (h : region.Rooted context.owningArrayBinding) {x y : Nat}
    {g gy : GeneratedNode} (hg : (x, g) ∈ region.entries) (hgy : (y, gy) ∈ region.entries)
    (hgh : Hangs g gy) :
    region.owningArray context base gy = (region.node context base (x, g)).childOwner := by
  obtain ⟨hx, hg⟩ := mem_entries.mp hg
  obtain ⟨hy, hgy⟩ := mem_entries.mp hgy
  have hgmem := List.mem_of_getElem? hg
  have hgymem := List.mem_of_getElem? hgy
  show region.owningArray context base gy =
    if g.semanticKind = some .homogeneousArray then some (region.id base x)
    else region.owningArray context base g
  by_cases harray : g.semanticKind = some .homogeneousArray
  · rw [if_pos harray]
    have howner := (hangs_array h.forest hgmem hgymem harray hgh).1
    cases hcontext : context.owningArrayBinding with
    | some binding =>
      obtain ⟨g', hg', hsome⟩ := (hcontext ▸ h).owned_included hx
      obtain rfl := Option.some.inj (hg.symm.trans hg')
      cases (h.forest.arrays g hgmem harray).2.symm.trans hsome
    | none =>
      obtain ⟨i, hi, array, harray', hnone, _, hbinding, heq⟩ :=
        owningArray_root base (hcontext ▸ h) (hscope.mpr hcontext) hy hgy howner
      obtain rfl := place_inj h.forest harray' hg
        (hnone.trans (h.forest.arrays g hgmem harray).2.symm) hbinding
      exact heq
  · rw [if_neg harray]
    rcases hgh with ⟨hsame, _⟩ | ⟨_, hkind, _⟩
    · rw [owningArray, owningArray, hsame]
    · exact absurd hkind harray

theorem segment (h : region.Rooted context.owningArrayBinding) :
    Segment context.owningArray base (region.nodes context base)
      (region.tops.map (region.id base)) where
  ids := by
    have hids : (region.nodes context base).map (·.id) =
        (region.entries.map Prod.fst).map (region.id base) := by
      simp [nodes, node, GeneratedNode.definitionNode, Function.comp_def]
    rw [hids, entries_fst, map_id, nodes, List.length_map, ← entries_fst, List.length_map]
  piece := by
    have hchildren : (region.nodes context base).map (·.children) =
        (region.entries.map Prod.fst).map fun x => (region.children x).map (region.id base) := by
      simp [nodes, node, GeneratedNode.definitionNode, Function.comp_def]
    rw [hchildren, entries_fst]
    exact h.piece base
  roots r hr := by
    obtain ⟨x, hx, rfl⟩ := List.mem_map.mp hr
    obtain ⟨g, he⟩ := entry_of_included (h.top_included hx)
    refine ⟨region.node context base (x, g), List.mem_map_of_mem he, rfl, ?_⟩
    refine owningArray_eq ?_ hscope
    have htop : region.parent = some x ∨ x ∈ region.roots := by
      unfold tops at hx
      split at hx
      · rename_i p hp
        rw [List.mem_singleton.mp hx]
        exact .inl hp
      · exact .inr hx
    obtain ⟨g', hg', howner⟩ := h.owned x htop
    obtain rfl := Option.some.inj ((mem_entries.mp he).2.symm.trans hg')
    exact howner
  children n hn c hc := by
    obtain ⟨⟨x, g⟩, he, rfl⟩ := List.mem_map.mp hn
    obtain ⟨y, hy, rfl⟩ := List.mem_map.mp hc
    obtain ⟨hx, hg⟩ := mem_entries.mp he
    obtain ⟨hchild, hyinc⟩ := h.mem_children hx hy
    obtain ⟨g', gy, hg', hgy, hgh⟩ := mem_generatedChildIndices.mp hchild
    obtain rfl := Option.some.inj (hg.symm.trans hg')
    have hey : (y, gy) ∈ region.entries := mem_entries.mpr ⟨hyinc, hgy⟩
    exact ⟨region.node context base (y, gy), List.mem_map_of_mem hey, rfl,
      childOwner_eq hscope h he hey hgh⟩
  arrays n hn harray := by
    obtain ⟨⟨x, g⟩, he, rfl⟩ := List.mem_map.mp hn
    obtain ⟨hx, hg⟩ := mem_entries.mp he
    obtain ⟨hcontrol, hnone⟩ := h.forest.arrays g (List.mem_of_getElem? hg) harray
    refine ⟨owningArray_none hnone, ?_⟩
    have hne : region.parent ≠ some x := by
      intro hp
      cases hcontrol.symm.trans (h.object x g hp hg)
    obtain ⟨c, hc⟩ := array_children h.forest hg harray
    simp [node, GeneratedNode.definitionNode, h.children_eq hx hne, hc]
  owners n hn := by
    obtain ⟨⟨x, g⟩, he, rfl⟩ := List.mem_map.mp hn
    obtain ⟨hx, hg⟩ := mem_entries.mp he
    cases hcontext : context.owningArrayBinding with
    | some binding =>
      obtain ⟨g', hg', hsome⟩ := (hcontext ▸ h).owned_included hx
      obtain rfl := Option.some.inj (hg.symm.trans hg')
      exact .inl (owningArray_eq (hsome.trans hcontext.symm) hscope)
    | none =>
      cases howner : g.owningArrayBinding with
      | none => exact .inl (owningArray_eq (howner.trans hcontext.symm) hscope)
      | some a =>
        obtain ⟨i, hi, array, harray, _, _, _, heq⟩ :=
          owningArray_root base (hcontext ▸ h) (hscope.mpr hcontext) hx hg howner
        refine .inr ⟨hscope.mpr hcontext, region.node context base (i, array), ?_, heq⟩
        exact List.mem_map_of_mem (mem_entries.mpr ⟨hi, harray⟩)

/-- A node's owner tells the owner of the generated one. -/
theorem owner_inj (h : region.Rooted context.owningArrayBinding) {x y : Nat}
    {g gy : GeneratedNode} (hg : (x, g) ∈ region.entries) (hgy : (y, gy) ∈ region.entries)
    (heq : region.owningArray context base g = region.owningArray context base gy) :
    g.owningArrayBinding = gy.owningArrayBinding := by
  obtain ⟨hx, hg⟩ := mem_entries.mp hg
  obtain ⟨hy, hgy⟩ := mem_entries.mp hgy
  cases hcontext : context.owningArrayBinding with
  | some binding =>
    obtain ⟨g', hg', hsome⟩ := (hcontext ▸ h).owned_included hx
    obtain ⟨gy', hgy', hsome'⟩ := (hcontext ▸ h).owned_included hy
    obtain rfl := Option.some.inj (hg.symm.trans hg')
    obtain rfl := Option.some.inj (hgy.symm.trans hgy')
    exact hsome.trans hsome'.symm
  | none =>
    have hroot {z : Nat} {gz : GeneratedNode} (hz : z ∈ region.included)
        (hgz : region.generated[z]? = some gz) {a : Pointer} (ha : gz.owningArrayBinding = some a) :
        ∃ i ∈ region.included, ∃ array, region.generated[i]? = some array ∧ array.binding = a ∧
          region.owningArray context base gz = some (region.id base i) := by
      obtain ⟨i, hi, array, harray, _, _, hbinding, howner⟩ :=
        owningArray_root base (hcontext ▸ h) (hscope.mpr hcontext) hz hgz ha
      exact ⟨i, hi, array, harray, hbinding, howner⟩
    cases hn : g.owningArrayBinding with
    | none =>
      cases hn' : gy.owningArrayBinding with
      | none => rfl
      | some a =>
        obtain ⟨i, _, _, _, _, howner⟩ := hroot hy hgy hn'
        cases (owningArray_none hn).symm.trans (heq.trans howner)
    | some a =>
      obtain ⟨i, hi, array, harray, hbinding, howner⟩ := hroot hx hg hn
      cases hn' : gy.owningArrayBinding with
      | none => cases howner.symm.trans (heq.trans (owningArray_none hn'))
      | some a' =>
        obtain ⟨j, _, array', harray', hbinding', howner'⟩ := hroot hy hgy hn'
        have hid := Option.some.inj (howner.symm.trans (heq.trans howner'))
        obtain rfl := id_inj hi hid
        obtain rfl := Option.some.inj (harray.symm.trans harray')
        rw [← hbinding, ← hbinding']

theorem places_nodup (h : region.Rooted context.owningArrayBinding) :
    ((region.nodes context base).map fun n => (n.owningArray, n.binding)).Nodup := by
  rw [nodes, List.map_map]
  refine List.Nodup.map_on ?_ entries_nodup
  rintro ⟨x, g⟩ he ⟨y, gy⟩ hey heq
  obtain ⟨howner, hbinding⟩ := Prod.mk.inj heq
  have hg := (mem_entries.mp he).2
  have hgy := (mem_entries.mp hey).2
  obtain rfl := place_inj h.forest hg hgy (owner_inj hscope h he hey howner)
    (Option.some.inj hbinding)
  obtain rfl := Option.some.inj (hg.symm.trans hgy)
  rfl

theorem innerPlaces_nodup (h : region.Rooted context.owningArrayBinding)
    (test : CompiledNode → Bool) :
    (innerPlaces test context.owningArray (region.nodes context base)).Nodup :=
  (places_nodup hscope h).sublist (List.filter_sublist.map _)

theorem nodes_content (h : region.Rooted context.owningArrayBinding) :
    ∀ n ∈ region.nodes context base,
      Content region.generated context (region.nodes context base) n := by
  intro n hn
  obtain ⟨⟨x, g⟩, he, rfl⟩ := List.mem_map.mp hn
  obtain ⟨hx, hg⟩ := mem_entries.mp he
  refine .shown g (List.mem_of_getElem? hg) (region.id base x) (region.owningArray context base g)
    ((region.children x).map (region.id base)) none ?_
  by_cases hsame : g.owningArrayBinding = context.owningArrayBinding
  · exact .inl ⟨owningArray_eq hsame hscope, hsame⟩
  · cases hcontext : context.owningArrayBinding with
    | some binding =>
      obtain ⟨g', hg', hsome⟩ := (hcontext ▸ h).owned_included hx
      obtain rfl := Option.some.inj (hg.symm.trans hg')
      exact absurd (hsome.trans hcontext.symm) hsame
    | none =>
      obtain ⟨a, ha⟩ := Option.ne_none_iff_exists'.mp (hcontext ▸ hsame)
      obtain ⟨i, hi, array, harray, _, _, hbinding, howner⟩ :=
        owningArray_root base (hcontext ▸ h) (hscope.mpr hcontext) hx hg ha
      refine .inr ⟨ha ▸ rfl, region.node context base (i, array), ?_, howner, ?_⟩
      · exact List.mem_map_of_mem (mem_entries.mpr ⟨hi, harray⟩)
      · rw [ha, ← hbinding]
        rfl

theorem ownsBinding_eq (h : region.Rooted context.owningArrayBinding) {x : Nat}
    {g : GeneratedNode} (he : (x, g) ∈ region.entries) :
    ownsBinding context g = ((region.node context base (x, g)).bindsValue &&
      (region.node context base (x, g)).owningArray == context.owningArray) := by
  have hx := (mem_entries.mp he).1
  have hg := (mem_entries.mp he).2
  have howner : region.owningArray context base g = context.owningArray ↔
      g.owningArrayBinding = context.owningArrayBinding := by
    refine ⟨fun heq => ?_, fun heq => owningArray_eq heq hscope⟩
    cases hcontext : context.owningArrayBinding with
    | some binding =>
      obtain ⟨g', hg', hsome⟩ := (hcontext ▸ h).owned_included hx
      obtain rfl := Option.some.inj (hg.symm.trans hg')
      exact hsome
    | none =>
      cases hn : g.owningArrayBinding with
      | none => rfl
      | some a =>
        obtain ⟨_, _, _, _, _, _, _, hsome⟩ :=
          owningArray_root base (hcontext ▸ h) (hscope.mpr hcontext) hx hg hn
        cases hsome.symm.trans (heq.trans (hscope.mpr hcontext))
  have hobject := h.forest.objects g (List.mem_of_getElem? hg)
  rw [Bool.eq_iff_iff]
  simp only [ownsBinding, CompiledNode.bindsValue, node, GeneratedNode.definitionNode,
    Bool.and_eq_true, Bool.or_eq_true, beq_iff_eq, howner, hobject, and_self]
  exact and_comm

end Nodes

/-! ## States -/

theorem foldlM_materializeNode {errorLocation : String} {l : List (Nat × GeneratedNode)}
    (hl : ∀ e ∈ l, region.generated[e.1]? = some e.2) {before after : CompileState}
    (h : (l.map Prod.fst).foldlM (region.materializeNode context errorLocation base) before =
      .ok after) :
    after.nodes = before.nodes ++ l.map (region.node context base) ∧
      after.authoredIds = before.authoredIds ∧
      after.bindings.Perm
        ((l.filter fun e => ownsBinding context e.2).map (·.2.binding) ++ before.bindings) ∧
      (before.bindings.Nodup → after.bindings.Nodup) := by
  induction l generalizing before with
  | nil =>
    obtain rfl := Except.ok.inj h
    exact ⟨by simp, rfl, .refl _, fun hn => hn⟩
  | cons e l ih =>
    rw [List.map_cons, List.foldlM_cons] at h
    obtain ⟨middle, hstep, h⟩ := bind_eq_ok.mp h
    have hrest := ih (fun e' he' => hl e' (List.mem_cons_of_mem _ he')) h
    obtain ⟨hnodes, hids, hbindings, hnodup⟩ := hrest
    simp only [materializeNode, hl e List.mem_cons_self] at hstep
    by_cases hclash : ownsBinding context e.2 = true ∧ before.bindings.contains e.2.binding = true
    · rw [if_pos (by simpa using hclash)] at hstep
      cases hstep
    · rw [if_neg (by simpa using hclash)] at hstep
      obtain rfl := Except.ok.inj hstep
      dsimp only at hnodes hids hbindings hnodup
      refine ⟨?_, hids, ?_, ?_⟩
      · rw [hnodes, List.map_cons, List.append_assoc]
        rfl
      · by_cases howns : ownsBinding context e.2 = true
        · rw [if_pos howns] at hbindings
          rw [List.filter_cons, if_pos howns]
          exact hbindings.trans List.perm_middle
        · rw [if_neg howns] at hbindings
          rw [List.filter_cons, if_neg howns]
          exact hbindings
      · intro hn
        refine hnodup ?_
        split
        · rename_i howns
          refine List.nodup_cons.mpr ⟨fun hmem => hclash ⟨howns, ?_⟩, hn⟩
          exact List.contains_iff_mem.mpr hmem
        · exact hn

theorem materializeGeneratedRegion_appended
    (hscope : context.owningArray = none ↔ context.owningArrayBinding = none)
    (hrooted : region.Rooted context.owningArrayBinding) {errorLocation : String}
    {before after : CompileState} {roots : List Nat}
    (h : materializeGeneratedRegion region context errorLocation before = .ok (roots, after)) :
    roots = region.tops.map (region.id before.nodes.length) ∧
      Appended context before (region.nodes context before.nodes.length) roots after := by
  unfold materializeGeneratedRegion at h
  obtain ⟨state, hfold, h⟩ := bind_eq_ok.mp h
  obtain ⟨hroots, rfl⟩ := Prod.mk.inj (Except.ok.inj h)
  have htops : roots = region.tops.map (region.id before.nodes.length) := by
    rw [← hroots, tops]
    cases region.parent <;> rfl
  rw [← entries_fst] at hfold
  obtain ⟨hnodes, hids, hbindings, hnodup⟩ :=
    foldlM_materializeNode (fun e he => (mem_entries.mp he).2) hfold
  refine ⟨htops, hnodes, ?_, ?_, hnodup, ?_, fun hn => hids ▸ hn⟩
  · rw [htops]
    exact segment hscope hrooted
  · refine (hbindings.map some).trans (List.Perm.of_eq ?_)
    rw [List.map_append, scopeBindings, nodes, List.filter_map, List.map_map, List.map_map]
    congr 1
    refine congrArg (List.map _) (List.filter_congr fun e he => ?_)
    exact ownsBinding_eq hscope hrooted he
  · rw [hids]
    refine List.Perm.of_eq ?_
    have hnone : (region.nodes context before.nodes.length).filterMap (·.authoredId) = [] := by
      rw [List.filterMap_eq_nil_iff]
      intro n hn
      obtain ⟨e, _, rfl⟩ := List.mem_map.mp hn
      rfl
    rw [hnone, List.nil_append]

end GeneratedRegion

end Schemaform
