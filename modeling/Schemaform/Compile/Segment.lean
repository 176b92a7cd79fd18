import Schemaform.Compile.Region
import Schemaform.Lib.Piece

/-!
# Compile.Segment

Nodes appended in a row: a piece of the definition tree with the scopes of its nodes.

* `CompiledNode.bindsValue`: the nodes that take their binding in their scope.
* `Segment`: ids, tree, owners and arrays of nodes in a row.
* `Segment.append`, `push`, `above`: side by side, a node after its children, a node before them.
* `scopeBindings`, `innerPlaces`: the bindings of the outer scope, and of the arrays inside.
* `Content`: what a node shows, in the scope of its owner.
* `Appended`: what compiling an element appends to the state.
-/

namespace Schemaform

namespace CompiledNode

variable (node : CompiledNode)

def bindsValue : Bool := node.kind == .control || node.semanticKind == some .fixedObject

def isControl : Bool := node.kind == .control

/-- The array the children of a node belong to. -/
def childOwner : Option Nat :=
  if node.semanticKind = some .homogeneousArray then some node.id else node.owningArray

end CompiledNode

/-- Nodes numbered from `base` on, whose roots belong to `owner`. -/
structure Segment (owner : Option Nat) (base : Nat) (nodes : List CompiledNode)
    (roots : List Nat) : Prop where
  ids : nodes.map (·.id) = List.range' base nodes.length
  piece : Forest.Piece base (nodes.map (·.children)) roots
  roots : ∀ r ∈ roots, ∃ n ∈ nodes, n.id = r ∧ n.owningArray = owner
  children : ∀ n ∈ nodes, ∀ c ∈ n.children, ∃ m ∈ nodes, m.id = c ∧ m.owningArray = n.childOwner
  arrays : ∀ n ∈ nodes, n.semanticKind = some .homogeneousArray →
    n.owningArray = none ∧ n.children.length = 1
  owners : ∀ n ∈ nodes, n.owningArray = owner ∨
    owner = none ∧ ∃ m ∈ nodes, n.owningArray = some m.id

/-! ## Bindings -/

section Bindings

variable (test : CompiledNode → Bool) (owner : Option Nat)

/-- The bindings of the nodes that pass a test, in the scope of the owner. -/
def scopeBindings (nodes : List CompiledNode) : List (Option Pointer) :=
  (nodes.filter fun n => test n && n.owningArray == owner).map (·.binding)

/-- The bindings of the nodes that pass a test, in other scopes and with these. -/
def innerPlaces (nodes : List CompiledNode) : List (Option Nat × Option Pointer) :=
  (nodes.filter fun n => test n && n.owningArray != owner).map fun n => (n.owningArray, n.binding)

theorem scopeBindings_append (nodes nodes' : List CompiledNode) :
    scopeBindings test owner (nodes ++ nodes') =
      scopeBindings test owner nodes ++ scopeBindings test owner nodes' := by
  rw [scopeBindings, List.filter_append, List.map_append]
  rfl

theorem innerPlaces_append (nodes nodes' : List CompiledNode) :
    innerPlaces test owner (nodes ++ nodes') =
      innerPlaces test owner nodes ++ innerPlaces test owner nodes' := by
  rw [innerPlaces, List.filter_append, List.map_append]
  rfl

theorem scopeBindings_singleton (node : CompiledNode) :
    scopeBindings test owner [node] =
      if test node && node.owningArray == owner then [node.binding] else [] := by
  rw [scopeBindings, List.filter_cons, List.filter_nil]
  split <;> rfl

variable {test owner}

theorem innerPlaces_singleton {node : CompiledNode} (h : node.owningArray = owner) :
    innerPlaces test owner [node] = [] := by
  simp [innerPlaces, h]

theorem mem_scopeBindings {nodes : List CompiledNode} {b : Option Pointer} :
    b ∈ scopeBindings test owner nodes ↔
      ∃ n ∈ nodes, test n = true ∧ n.owningArray = owner ∧ n.binding = b := by
  simp [scopeBindings, and_assoc]

/-- A control takes its binding. -/
theorem scopeBindings_controls (owner : Option Nat) (nodes : List CompiledNode) :
    (scopeBindings (·.isControl) owner nodes).Sublist
      (scopeBindings (·.bindsValue) owner nodes) := by
  refine List.Sublist.map _ (List.monotone_filter_right _ fun n hn => ?_)
  simp only [CompiledNode.isControl, CompiledNode.bindsValue, Bool.and_eq_true,
    Bool.or_eq_true] at hn ⊢
  exact ⟨.inl hn.1, hn.2⟩

end Bindings

namespace Segment

variable {test : CompiledNode → Bool} {owner : Option Nat} {base : Nat}
  {nodes nodes' : List CompiledNode} {roots roots' : List Nat}

theorem mem_id (h : Segment owner base nodes roots) {n : CompiledNode} (hn : n ∈ nodes) :
    base ≤ n.id ∧ n.id < base + nodes.length := by
  have hmem : n.id ∈ nodes.map (·.id) := List.mem_map_of_mem hn
  rw [h.ids] at hmem
  simpa using hmem

theorem id_eq (h : Segment owner base nodes roots) {k : Nat} {n : CompiledNode}
    (hk : nodes[k]? = some n) : n.id = base + k := by
  have hid : (nodes.map (·.id))[k]? = some n.id := by rw [List.getElem?_map, hk, Option.map_some]
  rw [h.ids, List.getElem?_range' (List.getElem?_eq_some_iff.mp hk).1, Nat.one_mul] at hid
  exact (Option.some.inj hid).symm

/-- Ids are positions. -/
theorem get_id (front : List CompiledNode) (h : Segment owner front.length nodes roots)
    {n : CompiledNode} (hn : n ∈ nodes) : (front ++ nodes)[n.id]? = some n := by
  obtain ⟨k, hk⟩ := List.mem_iff_getElem?.mp hn
  rw [h.id_eq hk, List.getElem?_append_right (Nat.le_add_right _ _), Nat.add_sub_cancel_left, hk]

theorem nil : Segment owner base [] [] where
  ids := rfl
  piece := .nil
  roots := by simp
  children := by simp
  arrays := by simp
  owners := by simp

theorem append (h : Segment owner base nodes roots)
    (h' : Segment owner (base + nodes.length) nodes' roots') :
    Segment owner base (nodes ++ nodes') (roots ++ roots') where
  ids := by
    rw [List.map_append, h.ids, h'.ids, List.range'_append_1, List.length_append]
  piece := by
    rw [List.map_append]
    refine h.piece.append ?_
    rw [List.length_map]
    exact h'.piece
  roots r hr := by
    rcases List.mem_append.mp hr with hr | hr
    · obtain ⟨n, hn, hroot⟩ := h.roots r hr
      exact ⟨n, List.mem_append_left _ hn, hroot⟩
    · obtain ⟨n, hn, hroot⟩ := h'.roots r hr
      exact ⟨n, List.mem_append_right _ hn, hroot⟩
  children n hn c hc := by
    rcases List.mem_append.mp hn with hn | hn
    · obtain ⟨m, hm, hchild⟩ := h.children n hn c hc
      exact ⟨m, List.mem_append_left _ hm, hchild⟩
    · obtain ⟨m, hm, hchild⟩ := h'.children n hn c hc
      exact ⟨m, List.mem_append_right _ hm, hchild⟩
  arrays n hn := by
    rcases List.mem_append.mp hn with hn | hn
    · exact h.arrays n hn
    · exact h'.arrays n hn
  owners n hn := by
    rcases List.mem_append.mp hn with hn | hn
    · refine (h.owners n hn).imp_right fun ⟨hnone, m, hm, howner⟩ => ?_
      exact ⟨hnone, m, List.mem_append_left _ hm, howner⟩
    · refine (h'.owners n hn).imp_right fun ⟨hnone, m, hm, howner⟩ => ?_
      exact ⟨hnone, m, List.mem_append_right _ hm, howner⟩

/-- A node pushed after everything below it. -/
theorem push (h : Segment owner base nodes roots) {node : CompiledNode}
    (hid : node.id = base + nodes.length) (hchildren : node.children = roots)
    (howner : node.owningArray = owner) (hkind : node.semanticKind ≠ some .homogeneousArray) :
    Segment owner base (nodes ++ [node]) [base + nodes.length] where
  ids := by
    rw [List.map_append, h.ids, List.length_append, List.length_singleton,
      ← List.range'_append_1, List.map_singleton, hid]
    rfl
  piece := by
    rw [List.map_append, List.map_singleton, hchildren]
    have hpush := h.piece.push
    rwa [List.length_map] at hpush
  roots r hr := by
    obtain rfl := List.mem_singleton.mp hr
    exact ⟨node, by simp, hid, howner⟩
  children n hn c hc := by
    rcases List.mem_append.mp hn with hn | hn
    · obtain ⟨m, hm, hchild⟩ := h.children n hn c hc
      exact ⟨m, List.mem_append_left _ hm, hchild⟩
    · obtain rfl := List.mem_singleton.mp hn
      rw [hchildren] at hc
      obtain ⟨m, hm, hmid, hmowner⟩ := h.roots c hc
      refine ⟨m, List.mem_append_left _ hm, hmid, ?_⟩
      rw [CompiledNode.childOwner, if_neg hkind, hmowner, howner]
  arrays n hn hn' := by
    rcases List.mem_append.mp hn with hn | hn
    · exact h.arrays n hn hn'
    · obtain rfl := List.mem_singleton.mp hn
      exact absurd hn' hkind
  owners n hn := by
    rcases List.mem_append.mp hn with hn | hn
    · refine (h.owners n hn).imp_right fun ⟨hnone, m, hm, howner⟩ => ?_
      exact ⟨hnone, m, List.mem_append_left _ hm, howner⟩
    · obtain rfl := List.mem_singleton.mp hn
      exact .inl howner

/-- A node without children. -/
theorem single {node : CompiledNode} (hid : node.id = base) (hchildren : node.children = [])
    (howner : node.owningArray = owner) (hkind : node.semanticKind ≠ some .homogeneousArray) :
    Segment owner base [node] [base] := by
  have hnil : Segment owner base [] [] := nil
  exact hnil.push (by simpa using hid) hchildren howner hkind

/-- A node before everything below it, in the scope of its children. -/
theorem above {inner : Option Nat} (h : Segment inner (base + 1) nodes roots)
    {node : CompiledNode} (hid : node.id = base) (hchildren : node.children = roots)
    (howner : node.owningArray = owner) (hinner : node.childOwner = inner)
    (harray : node.semanticKind = some .homogeneousArray → owner = none ∧ roots.length = 1)
    (hscope : inner = owner ∨ owner = none ∧ inner = some base) :
    Segment owner base (node :: nodes) [base] where
  ids := by
    rw [List.map_cons, h.ids, hid, List.length_cons, List.range'_succ]
  piece := by
    rw [List.map_cons, hchildren]
    exact h.piece.above
  roots r hr := by
    obtain rfl := List.mem_singleton.mp hr
    exact ⟨node, List.mem_cons_self, hid, howner⟩
  children n hn c hc := by
    rcases List.mem_cons.mp hn with rfl | hn
    · rw [hchildren] at hc
      obtain ⟨m, hm, hmid, hmowner⟩ := h.roots c hc
      exact ⟨m, List.mem_cons_of_mem _ hm, hmid, hmowner.trans hinner.symm⟩
    · obtain ⟨m, hm, hchild⟩ := h.children n hn c hc
      exact ⟨m, List.mem_cons_of_mem _ hm, hchild⟩
  arrays n hn hn' := by
    rcases List.mem_cons.mp hn with rfl | hn
    · obtain ⟨hnone, hlength⟩ := harray hn'
      exact ⟨howner.trans hnone, hchildren ▸ hlength⟩
    · exact h.arrays n hn hn'
  owners n hn := by
    rcases List.mem_cons.mp hn with rfl | hn
    · exact .inl howner
    · rcases hscope with rfl | ⟨hnone, rfl⟩
      · refine (h.owners n hn).imp_right fun ⟨hnone, m, hm, howner⟩ => ?_
        exact ⟨hnone, m, List.mem_cons_of_mem _ hm, howner⟩
      · rcases h.owners n hn with hn | ⟨hfalse, _⟩
        · exact .inr ⟨hnone, node, List.mem_cons_self, by rw [hn, hid]⟩
        · cases hfalse

/-! ## Scopes -/

theorem owned {array : Nat} (h : Segment (some array) base nodes roots) {n : CompiledNode}
    (hn : n ∈ nodes) : n.owningArray = some array := by
  rcases h.owners n hn with hn | ⟨hnone, _⟩
  · exact hn
  · cases hnone

/-- The scopes inside a segment belong to its arrays. -/
theorem inner_id (h : Segment owner base nodes roots) {place : Option Nat × Option Pointer}
    (hplace : place ∈ innerPlaces test owner nodes) :
    ∃ a, place.1 = some a ∧ base ≤ a ∧ a < base + nodes.length := by
  obtain ⟨n, hn, rfl⟩ := List.mem_map.mp hplace
  obtain ⟨hn, hbinds⟩ := List.mem_filter.mp hn
  have hne : n.owningArray ≠ owner := by simpa using (Bool.and_eq_true_iff.mp hbinds).2
  rcases h.owners n hn with howner | ⟨_, m, hm, howner⟩
  · exact absurd howner hne
  · exact ⟨m.id, howner, h.mem_id hm⟩

theorem innerPlaces_nodup_append (h : Segment owner base nodes roots)
    (h' : Segment owner (base + nodes.length) nodes' roots') :
    (innerPlaces test owner (nodes ++ nodes')).Nodup ↔
      (innerPlaces test owner nodes).Nodup ∧ (innerPlaces test owner nodes').Nodup := by
  rw [innerPlaces_append, List.nodup_append]
  constructor
  · rintro ⟨hn, hn', _⟩
    exact ⟨hn, hn'⟩
  · rintro ⟨hn, hn'⟩
    refine ⟨hn, hn', ?_⟩
    intro place hplace place' hplace' heq
    subst heq
    obtain ⟨a, ha, _, hlt⟩ := h.inner_id hplace
    obtain ⟨a', ha', hle, _⟩ := h'.inner_id hplace'
    obtain rfl := Option.some.inj (ha.symm.trans ha')
    omega

end Segment

/-! ## Contents -/

/-- The owner of a node stands for the owner of the generated one: both are those of the context,
or the array is among the nodes. -/
def OwnerShown (context : AuthoredBindingContext) (nodes : List CompiledNode)
    (owningArray : Option Nat) (owner : Option Pointer) : Prop :=
  owningArray = context.owningArray ∧ owner = context.owningArrayBinding ∨
    owner.isSome ∧ ∃ array ∈ nodes, owningArray = some array.id ∧ array.binding = owner

/-- A node shows something generated, or is layout. -/
inductive Content (generated : List GeneratedNode) (context : AuthoredBindingContext)
    (nodes : List CompiledNode) : CompiledNode → Prop
  | shown (g : GeneratedNode) (hg : g ∈ generated) (id : Nat) (owningArray : Option Nat)
      (children : List Nat) (authoredId : Option String)
      (howner : OwnerShown context nodes owningArray g.owningArrayBinding) :
      Content generated context nodes { g.definitionNode id owningArray children with authoredId }
  | layout (kind : DefinitionNodeKind) (hkind : kind ≠ .control ∧ kind ≠ .unsupported) (id : Nat)
      (owningArray : Option Nat) (children : List Nat) (authoredId : Option String) :
      Content generated context nodes
        { presentationNode kind children with id, owningArray, authoredId }

section Contents

variable {generated : List GeneratedNode} {context : AuthoredBindingContext}
  {nodes nodes' : List CompiledNode} {node : CompiledNode}

theorem Content.mono (h : Content generated context nodes node) (hsub : nodes ⊆ nodes') :
    Content generated context nodes' node := by
  cases h with
  | shown g hg id owningArray children authoredId howner =>
    refine .shown g hg id owningArray children authoredId (howner.imp_right ?_)
    rintro ⟨hsome, array, harray, hown, hbinding⟩
    exact ⟨hsome, array, hsub harray, hown, hbinding⟩
  | layout kind hkind id owningArray children authoredId =>
    exact .layout kind hkind id owningArray children authoredId

/-- An item template seen from outside, with the node of its array. -/
theorem Content.outside {outer : AuthoredBindingContext} {array : CompiledNode} {binding : Pointer}
    (h : Content generated context nodes node) (hsub : nodes ⊆ nodes') (harray : array ∈ nodes')
    (hid : context.owningArray = some array.id) (howning : context.owningArrayBinding = some binding)
    (hbinding : array.binding = some binding) : Content generated outer nodes' node := by
  cases h with
  | shown g hg id owningArray children authoredId howner =>
    refine .shown g hg id owningArray children authoredId (.inr ?_)
    rcases howner with ⟨hown, howner⟩ | ⟨hsome, other, hother, hown, hotherBinding⟩
    · rw [howner, howning]
      exact ⟨rfl, array, harray, hown.trans hid, hbinding⟩
    · exact ⟨hsome, other, hsub hother, hown, hotherBinding⟩
  | layout kind hkind id owningArray children authoredId =>
    exact .layout kind hkind id owningArray children authoredId

theorem content_append {added added' : List CompiledNode}
    (h : ∀ n ∈ added, Content generated context added n)
    (h' : ∀ n ∈ added', Content generated context added' n) :
    ∀ n ∈ added ++ added', Content generated context (added ++ added') n := by
  intro n hn
  rcases List.mem_append.mp hn with hn | hn
  · exact (h n hn).mono (List.subset_append_left _ _)
  · exact (h' n hn).mono (List.subset_append_right _ _)

end Contents

/-! ## States -/

/-- Nodes appended to a state, their authored ids taken. -/
structure Laid (owner : Option Nat) (before : CompileState) (added : List CompiledNode)
    (roots : List Nat) (after : CompileState) : Prop where
  nodes : after.nodes = before.nodes ++ added
  segment : Segment owner before.nodes.length added roots
  authoredIds : after.authoredIds.Perm (added.filterMap (·.authoredId) ++ before.authoredIds)
  authoredIds_nodup : before.authoredIds.Nodup → after.authoredIds.Nodup

/-- Nodes appended to a state, their bindings and authored ids taken. -/
structure Appended (context : AuthoredBindingContext) (before : CompileState)
    (added : List CompiledNode) (roots : List Nat) (after : CompileState) : Prop where
  nodes : after.nodes = before.nodes ++ added
  segment : Segment context.owningArray before.nodes.length added roots
  bindings : (after.bindings.map some).Perm
    (scopeBindings (·.bindsValue) context.owningArray added ++ before.bindings.map some)
  bindings_nodup : before.bindings.Nodup → after.bindings.Nodup
  authoredIds : after.authoredIds.Perm (added.filterMap (·.authoredId) ++ before.authoredIds)
  authoredIds_nodup : before.authoredIds.Nodup → after.authoredIds.Nodup

namespace Appended

variable {context : AuthoredBindingContext} {before middle after : CompileState}
  {added added' : List CompiledNode} {roots roots' : List Nat}

theorem refl : Appended context before [] [] before where
  nodes := by simp
  segment := .nil
  bindings := .refl _
  bindings_nodup := fun hn => hn
  authoredIds := .refl _
  authoredIds_nodup := fun hn => hn

theorem trans (h : Appended context before added roots middle)
    (h' : Appended context middle added' roots' after) :
    Appended context before (added ++ added') (roots ++ roots') after where
  nodes := by rw [h'.nodes, h.nodes, List.append_assoc]
  segment := by
    have hlength : middle.nodes.length = before.nodes.length + added.length := by
      rw [h.nodes, List.length_append]
    exact h.segment.append (hlength ▸ h'.segment)
  bindings := by
    refine h'.bindings.trans ((h.bindings.append_left _).trans ?_)
    rw [scopeBindings_append, ← List.append_assoc]
    exact List.perm_append_comm.append_right _
  bindings_nodup hn := h'.bindings_nodup (h.bindings_nodup hn)
  authoredIds := by
    refine h'.authoredIds.trans ((h.authoredIds.append_left _).trans ?_)
    rw [List.filterMap_append, ← List.append_assoc]
    exact List.perm_append_comm.append_right _
  authoredIds_nodup hn := h'.authoredIds_nodup (h.authoredIds_nodup hn)

theorem laid (h : Appended context before added roots after) :
    Laid context.owningArray before added roots after :=
  ⟨h.nodes, h.segment, h.authoredIds, h.authoredIds_nodup⟩

theorem scope_nodup (h : Appended context before added roots after) (hn : before.bindings.Nodup) :
    (scopeBindings (·.bindsValue) context.owningArray added).Nodup := by
  have hmap := (h.bindings_nodup hn).map (Option.some_injective _)
  exact (List.nodup_append.mp (h.bindings.nodup_iff.mp hmap)).1

end Appended

end Schemaform
