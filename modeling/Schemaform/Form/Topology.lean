import Schemaform.Engine.Items
import Schemaform.Form.Submission

/-!
# Form.Topology

What a transition says about the nodes that come and go.

* `ExactTopology`: removed nodes are those that are gone, every new node is listed as changed, and
  everything listed resolves and is listed once.
* One lemma for each way a transition is put together: nothing moves, two trees are compared, or an
  array operation lists the items it dropped.
* `topology_exact`: every successful operation on a reachable form.
-/

namespace Schemaform

open ListEdit (swap eraseIndices)

namespace Form

variable {form form' : Form} {identity : InstanceIdentity}

structure ExactTopology (form form' : Form) (t : Transition) : Prop where
  removed : ∀ identity, identity ∈ t.removed ↔
    (form.node identity).isSome ∧ form'.node identity = none
  appeared : ∀ identity, form.node identity = none → (form'.node identity).isSome →
    identity ∈ t.changed
  resolves : ∀ identity ∈ t.changed, (form'.node identity).isSome
  changed_nodup : t.changed.Nodup
  removed_nodup : t.removed.Nodup

/-! ## Items and nodes -/

/-- The same definition in the same form. -/
structure SameForm (form form' : Form) : Prop where
  definition : form'.definition = form.definition
  id : form'.id = form.id

theorem Effect.sameForm (h : form.Effect form') : form.SameForm form' := ⟨h.definition, h.id⟩

theorem itemsOf_congr (h : form.SameForm form') (owner : Nat)
    (hitems : ∀ binding, ((form.definition.inner.nodes[owner]?).bind (·.binding)) = some binding →
      form'.engine.arrayItemIdentities binding = form.engine.arrayItemIdentities binding) :
    form'.itemsOf owner = form.itemsOf owner := by
  unfold itemsOf
  rw [h.definition]
  cases hb : (form.definition.inner.nodes[owner]?).bind (·.binding) with
  | none => rfl
  | some binding => exact congrArg (·.getD []) (hitems binding hb)

/-- Nothing is lost where no array loses an item. -/
theorem resolves_mono (h : form.SameForm form')
    (hitems : ∀ owner, form.itemsOf owner ⊆ form'.itemsOf owner)
    (hr : (form.node identity).isSome) : (form'.node identity).isSome := by
  obtain ⟨hform, d, hd, hitem⟩ := resolves_iff.mp hr
  refine resolves_iff.mpr ⟨hform.trans h.id.symm, d, h.definition ▸ hd, ?_⟩
  cases hi : identity.item with
  | none => rwa [hi] at hitem
  | some item =>
    rw [hi] at hitem
    obtain ⟨hid, owner, ho, hmem⟩ := hitem
    exact ⟨hid.trans h.id.symm, owner, ho, hitems owner hmem⟩

/-- The same nodes resolve. -/
def SameNodes (form form' : Form) : Prop :=
  ∀ identity, (form'.node identity).isSome ↔ (form.node identity).isSome

theorem SameNodes.of_table (h : form.SameForm form')
    (ht : form'.engine.itemTable = form.engine.itemTable) : form.SameNodes form' := by
  have hitems (owner : Nat) : form'.itemsOf owner = form.itemsOf owner :=
    itemsOf_congr h owner fun binding _ => Engine.Form.arrayItemIdentities_congr ht binding
  have h' : form'.SameForm form := ⟨h.definition.symm, h.id.symm⟩
  refine fun identity => ⟨resolves_mono h' fun owner => ?_, resolves_mono h fun owner => ?_⟩
  all_goals rw [hitems owner]
  all_goals exact List.Subset.refl _

/-! ## Three kinds of transition -/

/-- Nothing comes or goes. -/
theorem transition_exact (hsame : form.SameNodes form') {before after : Revisions}
    {changed : List InstanceIdentity} (hresolves : ∀ identity ∈ changed, (form'.node identity).isSome)
    (hnd : changed.Nodup) : form.ExactTopology form' (transition before after changed) where
  removed := by
    intro identity
    refine ⟨nofun, fun ⟨hr, hnone⟩ => ?_⟩
    have hr' := (hsame identity).mpr hr
    rw [hnone] at hr'
    cases hr'
  appeared := by
    intro identity hnone hr
    have hr' := (hsame identity).mp hr
    rw [hnone] at hr'
    cases hr'
  resolves := hresolves
  changed_nodup := hnd
  removed_nodup := List.nodup_nil

/-- The two trees are compared. -/
theorem topologyTransition_exact (hinv : form.Inv) (hinv' : form'.Inv) (before after : Revisions)
    (changed : List InstanceIdentity) : form.ExactTopology form'
      (form'.topologyTransition before after form.instanceIdentities changed) where
  removed := by
    intro identity
    simp only [topologyTransition, List.mem_filter, Bool.not_eq_true', List.contains_eq_mem,
      decide_eq_false_iff_not, mem_instanceIdentities hinv, mem_instanceIdentities hinv',
      Option.not_isSome_iff_eq_none]
  appeared := by
    intro identity hnone hr
    have hnot : identity ∉ form.instanceIdentities := by
      rw [mem_instanceIdentities hinv, hnone]
      nofun
    have hmem := (mem_instanceIdentities hinv').mpr hr
    simp only [topologyTransition, List.mem_eraseDups, List.mem_filter, List.mem_append]
    exact ⟨.inr ⟨hmem, by simpa using hnot⟩, by simpa using hmem⟩
  resolves := by
    intro identity hmem
    simp only [topologyTransition, List.mem_eraseDups, List.mem_filter] at hmem
    exact (mem_instanceIdentities hinv').mp (by simpa using hmem.2)
  changed_nodup := ListEdit.nodup_eraseDups _
  removed_nodup := (instanceIdentities_nodup hinv).filter _

theorem findingsByNode_fst {α : Type} (form : Form) (findings : NodeView → List α) :
    (form.findingsByNode findings).map Prod.fst = form.instanceIdentities := by
  simp [findingsByNode, Function.comp_def]

/-- Nodes of the tree before, each at most once. -/
theorem transition_sublist (hinv : form.Inv) (hsame : form.SameNodes form')
    {before after : Revisions} {changed : List InstanceIdentity}
    (hsub : changed.Sublist form.instanceIdentities) :
    form.ExactTopology form' (transition before after changed) :=
  transition_exact hsame
    (fun identity h => (hsame identity).mpr ((mem_instanceIdentities hinv).mp (hsub.subset h)))
    ((instanceIdentities_nodup hinv).sublist hsub)

theorem userTransition_exact (hinv : form.Inv) (hsame : form.SameNodes form')
    (target : InstanceIdentity) (before : Revisions) (external : List InstanceIdentity)
    (after : Revisions) : form.ExactTopology form' (form'.userTransition target before
      form.visibleValidationFindingsByNode external after) := by
  refine transition_sublist hinv hsame ?_
  rw [← form.findingsByNode_fst NodeView.validationFindings]
  exact ListEdit.filterMap_zip_sublist
    (fun entry (after' : InstanceIdentity × List ValidationFinding) =>
    entry.1 == target && before != after ||
      before.1 != after.1 && (form'.affectedByEdit target ++
        (if before.1 != after.1 then external else [])).contains entry.1 ||
      entry.2 != after'.2) _ _

theorem changedNodes_exact (hinv' : form'.Inv) (hsame : form.SameNodes form')
    (before after : Revisions) (observations : List (InstanceIdentity × NodeObservation)) :
    form.ExactTopology form' (transition before after (form'.changedNodes observations)) :=
  transition_exact hsame
    (fun _ h => (mem_instanceIdentities hinv').mp (List.mem_filter.mp h).1)
    ((instanceIdentities_nodup hinv').filter _)

theorem hostChangedNodes_sublist (form : Form) (directlyChanged : List InstanceIdentity)
    (before : Revisions) (findingsBefore : List (InstanceIdentity × List ValidationFinding))
    (after : Revisions) :
    (form.hostChangedNodes directlyChanged before findingsBefore after).Sublist
      form.instanceIdentities := by
  unfold hostChangedNodes
  split
  · exact List.nil_sublist _
  · rw [← form.findingsByNode_fst NodeView.validationFindings]
    exact ListEdit.filterMap_fst_sublist (fun entry => directlyChanged.contains entry.1 ||
      findingsBefore.lookup entry.1 != some entry.2) _

theorem lookup_findingsByNode {α : Type} {findings : NodeView → List α}
    (h : identity ∉ form.instanceIdentities) :
    (form.findingsByNode findings).lookup identity = none := by
  rw [List.lookup_eq_none_iff]
  rintro ⟨other, _⟩ hmem
  have hother : other ∈ form.instanceIdentities :=
    form.findingsByNode_fst findings ▸ List.mem_map_of_mem hmem
  refine bne_iff_ne.mpr fun (he : identity = other) => h ?_
  rwa [he]

/-- An array operation lists the items it dropped; what is new had no findings before. -/
theorem arrayTransition_exact (hinv : form.Inv) (hinv' : form'.Inv)
    (hadvanced : form'.engine.stateRevision ≠ form.engine.stateRevision)
    (directlyChanged : List InstanceIdentity) {removed : List InstanceIdentity}
    (hremoved : ∀ identity, identity ∈ removed ↔
      (form.node identity).isSome ∧ form'.node identity = none) (hnd : removed.Nodup) :
    form.ExactTopology form' (form'.arrayTransition form.revisions
      form.visibleValidationFindingsByNode directlyChanged removed) where
  removed := hremoved
  appeared := by
    intro identity hnone hr
    have hnot : identity ∉ form.instanceIdentities := by
      rw [mem_instanceIdentities hinv, hnone]
      nofun
    have hmem := (mem_instanceIdentities hinv').mpr hr
    have hne : form.revisions ≠ form'.revisions := fun he =>
      hadvanced (congrArg (·.2.revision) he).symm
    have hlookup := @lookup_findingsByNode form identity _ NodeView.validationFindings hnot
    simp only [arrayTransition, hostChangedNodes, if_neg hne, List.mem_filterMap, Prod.exists]
    refine ⟨identity, _, List.mem_map_of_mem hmem, ?_⟩
    simp [visibleValidationFindingsByNode, hlookup]
  resolves := fun _ h =>
    (mem_instanceIdentities hinv').mp ((hostChangedNodes_sublist _ _ _ _ _).subset h)
  changed_nodup := (instanceIdentities_nodup hinv').sublist (hostChangedNodes_sublist _ _ _ _ _)
  removed_nodup := hnd

/-! ## Items of one array -/

/-- The array node an item operation is permitted on. -/
structure ArrayTarget (form : Form) (target : InstanceIdentity) (binding : Pointer)
    (template : Nat) (d : DefinitionNode) : Prop where
  identity : target = form.identity target.node
  node : form.definition.inner.nodes[target.node]? = some d
  array : d.semanticKind = some .homogeneousArray
  binding : d.binding = some binding
  template : form.definition.inner.arrayTemplate target.node = some template

theorem arrayTarget {target : InstanceIdentity} {binding : Pointer} {template : Nat}
    {allowed : AllowedOperations → Bool} (hnone : allowed {} = false)
    (hscalar : ∀ (node : NodeView) (state : ScalarValueState),
      allowed (node.scalarOperations state) = false)
    (hobject : ∀ node : NodeView, allowed node.objectOperations = false)
    (h : ∃ node, form.node target = some node ∧ allowed node.allowedOperations = true ∧
      node.binding = some binding)
    (ht : form.definition.inner.arrayTemplate target.node = some template) :
    ∃ d, form.ArrayTarget target binding template d := by
  obtain ⟨node, hnode, hallowed, hb⟩ := h
  rcases structure_of_allowed hnone (hscalar node) hallowed with ⟨hk, _⟩ | ⟨_, hallowed⟩
  · obtain ⟨hform, hf, hi, hd, _⟩ := node_eq_some.mp hnode
    have hitem := array_item_none (Option.isSome_of_eq_some hnode) hd hk
    refine ⟨node.definition, ?_, hd, hk, ?_, ht⟩
    · rw [identity, ← hform, ← hitem]
    · unfold NodeView.binding at hb
      rw [hi, hitem] at hb
      exact hb
  · rw [hobject node] at hallowed
    cases hallowed

section OneArray

variable {target : InstanceIdentity} {binding : Pointer} {template : Nat} {d : DefinitionNode}
  {before after : List Nat}

/-- The items of the array's own node are the ones replaced, those of any other array stay. -/
theorem itemsOf_replaced (hsame : form.SameForm form')
    (ht : form.ArrayTarget target binding template d)
    (hr : form.engine.ItemsReplaced form'.engine binding before after) :
    form.itemsOf target.node = before ∧ form'.itemsOf target.node = after ∧
    ∀ owner e, form.definition.inner.nodes[owner]? = some e →
      e.semanticKind = some .homogeneousArray → owner ≠ target.node →
      form'.itemsOf owner = form.itemsOf owner := by
  have hb : (form.definition.inner.nodes[target.node]?).bind (·.binding) = some binding := by
    rw [ht.node, Option.bind_some, ht.binding]
  refine ⟨?_, ?_, fun owner e he hk hne => ?_⟩
  · rw [itemsOf, hb, Option.bind_some, hr.before]
    rfl
  · rw [itemsOf, hsame.definition, hb, Option.bind_some, hr.after]
    rfl
  · refine itemsOf_congr hsame owner fun other ho => hr.others other fun heq => hne ?_
    rw [he, Option.bind_some, heq] at ho
    exact form.inner_wf.array_once he ht.node hk ht.array (ho.trans ht.binding.symm)

theorem itemsOf_kept (hsame : form.SameForm form')
    (ht : form.ArrayTarget target binding template d)
    (hr : form.engine.ItemsReplaced form'.engine binding before after) {owner : Nat}
    {e : DefinitionNode} (he : form.definition.inner.nodes[owner]? = some e)
    (hk : e.semanticKind = some .homogeneousArray) {item : Nat} :
    item ∈ form'.itemsOf owner ↔ (owner = target.node ∧ item ∈ after) ∨
      owner ≠ target.node ∧ item ∈ form.itemsOf owner := by
  obtain ⟨_, hafter, hothers⟩ := itemsOf_replaced hsame ht hr
  by_cases ho : owner = target.node
  · subst ho
    simp [hafter]
  · rw [hothers owner e he hk ho]
    simp [ho]

/-- Gone are the template nodes of the items that are gone. -/
theorem gone_iff (hsame : form.SameForm form')
    (ht : form.ArrayTarget target binding template d)
    (hr : form.engine.ItemsReplaced form'.engine binding before after) :
    (form.node identity).isSome ∧ form'.node identity = none ↔
      ∃ item, (item ∈ before ∧ item ∉ after) ∧
        identity ∈ form.itemSubtreeIdentities template (form.item item) := by
  have hbefore := (itemsOf_replaced hsame ht hr).1
  simp only [mem_itemSubtreeIdentities ht.template ht.node ht.array]
  constructor
  · rintro ⟨hresolves, hnone⟩
    have hnot : ¬ (form'.node identity).isSome := by simp [hnone]
    rw [resolves_iff, hsame.id, hsame.definition] at hnot
    obtain ⟨hform, e, he, hitem⟩ := resolves_iff.mp hresolves
    cases hi : identity.item with
    | none =>
      rw [hi] at hitem
      exact absurd ⟨hform, e, he, by rwa [hi]⟩ hnot
    | some item =>
      rw [hi] at hitem hnot
      obtain ⟨hid, owner, ho, hmem⟩ := hitem
      obtain ⟨o, hnode, hk⟩ := form.inner_wf.owner_array he ho
      have hlost : item.localId ∉ form'.itemsOf owner := fun hkept =>
        hnot ⟨hform, e, he, hid, owner, ho, hkept⟩
      rw [itemsOf_kept hsame ht hr hnode hk] at hlost
      have hown : owner = target.node := by
        by_contra hne
        exact hlost (.inr ⟨hne, hmem⟩)
      subst hown
      refine ⟨item.localId, ⟨hbefore ▸ hmem, fun h => hlost (.inl ⟨rfl, h⟩)⟩, hform, ?_, e, he, ho⟩
      rw [← item_eq hid]
  · rintro ⟨item, ⟨hmem, hlost⟩, hform, hi, e, he, ho⟩
    refine ⟨resolves_iff.mpr ⟨hform, e, he, ?_⟩, Option.not_isSome_iff_eq_none.mp fun hr' => ?_⟩
    · rw [hi]
      exact ⟨rfl, target.node, ho, hbefore ▸ hmem⟩
    · rw [resolves_iff, hsame.id, hsame.definition, hi] at hr'
      obtain ⟨_, e', he', _, owner, ho', hkept⟩ := hr'
      obtain rfl := Option.some.inj (he.symm.trans he')
      obtain rfl := Option.some.inj (ho.symm.trans ho')
      rw [itemsOf_kept hsame ht hr ht.node ht.array] at hkept
      rcases hkept with ⟨_, hafter⟩ | ⟨hne, _⟩
      · exact hlost hafter
      · exact hne rfl

/-- The subtrees of different items have nothing in common. -/
theorem itemSubtrees_nodup (ht : form.ArrayTarget target binding template d) {items : List Nat}
    (hnd : items.Nodup) : (form.itemSubtrees template items).Nodup := by
  refine List.nodup_flatMap.mpr ⟨fun item _ => itemSubtreeIdentities_nodup ht.template ht.node
    ht.array _, hnd.imp fun hne => ?_⟩
  intro identity hmem hmem'
  obtain ⟨_, hi, _⟩ := (mem_itemSubtreeIdentities ht.template ht.node ht.array).mp hmem
  obtain ⟨_, hi', _⟩ := (mem_itemSubtreeIdentities ht.template ht.node ht.array).mp hmem'
  exact hne (congrArg ItemIdentity.localId (Option.some.inj (hi.symm.trans hi')))

/-- An array operation that reports the subtrees of the items it dropped. -/
theorem itemsTransition_exact (hinv : form.Inv) (heffect : form.Effect form')
    (ht : form.ArrayTarget target binding template d)
    (hr : form.engine.ItemsReplaced form'.engine binding before after)
    (hadvanced : form'.engine.stateRevision ≠ form.engine.stateRevision)
    (directlyChanged : List InstanceIdentity) {dropped : List Nat} (hnd : dropped.Nodup)
    (hdropped : ∀ item, item ∈ dropped ↔ item ∈ before ∧ item ∉ after) :
    form.ExactTopology form' (form'.arrayTransition form.revisions
      form.visibleValidationFindingsByNode directlyChanged
      (form.itemSubtrees template dropped)) := by
  refine arrayTransition_exact hinv heffect.inv hadvanced directlyChanged (fun identity => ?_)
    (itemSubtrees_nodup ht hnd)
  rw [gone_iff heffect.sameForm ht hr]
  simp only [itemSubtrees, List.mem_flatMap, hdropped]

end OneArray

/-! ## Array operations -/

theorem before_nodup (hinv : form.Inv) {binding : Pointer} {before : List Nat}
    (h : form.engine.arrayItemIdentities binding = some before) : before.Nodup := by
  unfold Engine.Form.arrayItemIdentities at h
  obtain ⟨array, ha, rfl⟩ := Option.map_eq_some_iff.mp h
  exact hinv.identities_nodup array (Engine.Form.array_mem ha).1

/-- Nothing is dropped where all items stay. -/
theorem nothing_dropped {before after : List Nat} (h : before ⊆ after) (item : Nat) :
    item ∈ ([] : List Nat) ↔ item ∈ before ∧ item ∉ after :=
  ⟨nofun, fun ⟨hmem, hnot⟩ => absurd (h hmem) hnot⟩

theorem appendItem_exact (hinv : form.Inv) {array : InstanceIdentity} {t : Transition}
    (h : form.appendItem array = (form', .ok t)) : form.ExactTopology form' t := by
  have heffect := appendItem_effect hinv h
  rcases appendItem_cases h with ⟨_, _, hr⟩ | ⟨_, _, _, item, htemplate, ⟨hp, he⟩, rfl, hr⟩
  · cases hr
  · cases hr
    obtain ⟨d, ht⟩ := arrayTarget rfl (fun _ _ => rfl) (fun _ => rfl) hp htemplate
    obtain ⟨_, before, hreplaced⟩ := Engine.Form.appendArrayItem_items he
    have hedited :=
      edited_of_ok (Engine.Form.appendArrayItem_edited form.engine_wf hinv he) rfl
    exact itemsTransition_exact hinv heffect ht hreplaced hedited.advanced _ List.nodup_nil
      (nothing_dropped (List.subset_append_left _ _))

theorem insertItemBefore_exact (hinv : form.Inv) {array : InstanceIdentity} {item : ItemIdentity}
    {t : Transition} (h : form.insertItemBefore array item = (form', .ok t)) :
    form.ExactTopology form' t := by
  have heffect := insertItemBefore_effect hinv h
  rcases insertItemBefore_cases h with
    ⟨_, _, hr⟩ | ⟨_, _, _, inserted, _, htemplate, ⟨hp, he⟩, rfl, hr⟩
  · cases hr
  · cases hr
    obtain ⟨d, ht⟩ := arrayTarget rfl (fun _ _ => rfl) (fun _ => rfl) hp htemplate
    obtain ⟨_, before, position, _, _, hreplaced⟩ := Engine.Form.insertArrayItemBefore_items he
    have hedited :=
      edited_of_ok (Engine.Form.insertArrayItemBefore_edited form.engine_wf hinv he) rfl
    exact itemsTransition_exact hinv heffect ht hreplaced hedited.advanced _ List.nodup_nil
      (nothing_dropped (List.subset_insertIdx _ _ _))

theorem removeItem_exact (hinv : form.Inv) {array : InstanceIdentity} {item : ItemIdentity}
    {t : Transition} (h : form.removeItem array item = (form', .ok t)) :
    form.ExactTopology form' t := by
  have heffect := removeItem_effect hinv h
  rcases removeItem_cases h with
    ⟨_, _, hr⟩ | ⟨_, template, _, removed, hid, htemplate, ⟨hp, he⟩, rfl, hr⟩
  · cases hr
  · cases hr
    obtain ⟨d, ht⟩ := arrayTarget rfl (fun _ _ => rfl) (fun _ => rfl) hp htemplate
    obtain ⟨before, position, hfound, _, hreplaced⟩ := Engine.Form.removeArrayItem_items he
    have hedited := edited_of_ok (Engine.Form.removeArrayItem_edited hinv he) rfl
    have hdropped : form.itemSubtreeIdentities template item =
        form.itemSubtrees template [item.localId] := by
      rw [itemSubtrees, List.flatMap_singleton, ← item_eq hid]
    rw [hdropped]
    refine itemsTransition_exact hinv heffect ht hreplaced hedited.advanced _
      (List.nodup_singleton _) fun lost => ?_
    have hat : before[position]? = some item.localId := by
      obtain ⟨found, hat, heq⟩ := Engine.Form.findIdx?_some hfound
      rwa [beq_iff_eq.mp heq] at hat
    have herased := @ListEdit.mem_erased _ _ (before_nodup hinv hreplaced.before) [position]
      (List.pairwise_singleton _ _) lost
    rwa [List.filterMap_cons, hat] at herased

theorem moveItem_exact (hinv : form.Inv) {direction : Engine.ArrayMove} {array : InstanceIdentity}
    {item : ItemIdentity} {t : Transition}
    (h : form.moveItem direction array item = (form', .ok t)) : form.ExactTopology form' t := by
  have heffect := moveItem_effect hinv h
  rcases moveItem_cases h with
    ⟨_, _, hr⟩ | ⟨_, _, engine, moved, _, htemplate, ⟨hp, he⟩, hform, hr⟩
  · cases hr
  · cases hr
    obtain ⟨d, ht⟩ := arrayTarget rfl (fun _ _ => rfl) (fun _ => rfl) hp htemplate
    obtain ⟨before, _, _, hreplaced⟩ := Engine.Form.moveArrayItem_items he
    have hengine : form'.engine = engine := by
      rw [hform]
      split <;> rfl
    rw [← hengine] at hreplaced
    have hadvanced : form'.engine.stateRevision ≠ form.engine.stateRevision := by
      rw [hengine]
      have := (moveArrayItem_revisions he).2
      omega
    exact itemsTransition_exact hinv heffect ht hreplaced hadvanced _ List.nodup_nil
      (nothing_dropped (ListEdit.swap_perm _ _ _).symm.subset)

theorem toggleChoice_exact (hinv : form.Inv) {array : InstanceIdentity} {value : Value}
    {t : Transition} (h : form.toggleChoice array value = (form', .ok t)) :
    form.ExactTopology form' t := by
  have heffect := toggleChoice_effect hinv h
  rcases toggleChoice_cases h with ⟨_, _, hr⟩ | ⟨_, _, _, toggled, htemplate, ⟨hp, he⟩, rfl, hr⟩
  · cases hr
  · cases hr
    obtain ⟨d, ht⟩ := arrayTarget rfl (fun _ _ => rfl) (fun _ => rfl) hp htemplate
    have hedited :=
      edited_of_ok (Engine.Form.toggleArrayChoice_edited form.engine_wf hinv he) rfl
    rcases Engine.Form.toggleArrayChoice_items he with
      ⟨before, position, rfl, hreplaced⟩ | ⟨before, values, option, _, _, _, rfl, hreplaced⟩
    · exact itemsTransition_exact hinv heffect ht hreplaced hedited.advanced _ List.nodup_nil
        (nothing_dropped (List.subset_insertIdx _ _ _))
    · have hnd := before_nodup hinv hreplaced.before
      have hsorted := Engine.Form.carrying_sorted values option
      exact itemsTransition_exact hinv heffect ht hreplaced hedited.advanced _
        (ListEdit.nodup_erased hnd hsorted) fun _ => ListEdit.mem_erased hnd hsorted

/-! ## Edits of one control -/

theorem settle_sameNodes (form : Form) {engine : Engine.Form}
    (ht : engine.itemTable = form.engine.itemTable) :
    form.SameNodes ({ form with engine }.settle form.revisions) := by
  rw [settle_eq]
  split <;> exact .of_table ⟨rfl, rfl⟩ ht

theorem ScalarEdited.exact (hinv : form.Inv) {target : InstanceIdentity} {engine : Engine.Form}
    {t : Transition} (h : form.ScalarEdited target engine form' (.ok t))
    (ht : engine.itemTable = form.engine.itemTable) : form.ExactTopology form' t := by
  obtain ⟨rfl, hr⟩ := h
  cases hr
  exact userTransition_exact hinv (settle_sameNodes form ht) _ _ _ _

theorem StructureEdited.exact (hinv : form.Inv) (hinv' : form'.Inv) {binding : Pointer}
    {engine : Engine.Form} {t : Transition}
    (h : form.StructureEdited binding engine form' (.ok t)) : form.ExactTopology form' t := by
  obtain ⟨_, hr⟩ := h
  cases hr
  exact topologyTransition_exact hinv hinv' _ _ _

theorem inputText_exact (hinv : form.Inv) {target : InstanceIdentity} {text : String}
    {t : Transition} (h : form.inputText target text = (form', .ok t)) :
    form.ExactTopology form' t := by
  rcases inputText_cases h with ⟨_, _, hr⟩ | ⟨_, engine, ⟨_, he⟩, hs⟩
  · cases hr
  · exact hs.exact hinv (Engine.Form.editText_table he)

theorem setValue_exact (hinv : form.Inv) {target : InstanceIdentity} {value : Value}
    {t : Transition} (h : form.setValue target value = (form', .ok t)) :
    form.ExactTopology form' t := by
  rcases setValue_cases h with ⟨_, _, hr⟩ | ⟨_, engine, ⟨_, he⟩, hs⟩
  · cases hr
  · exact hs.exact hinv (Engine.Form.setValue_table he)

theorem setNull_exact (hinv : form.Inv) {target : InstanceIdentity} {t : Transition}
    (h : form.setNull target = (form', .ok t)) : form.ExactTopology form' t := by
  rcases setNull_cases h with ⟨_, _, hr⟩ | ⟨_, engine, ⟨_, he⟩, hs⟩
  · cases hr
  · exact hs.exact hinv (Engine.Form.setValue_table he)

/-- No array lies at or below a control. -/
theorem no_array_below (hinv : form.Inv) {p : Pointer} {c : Engine.ControlState}
    {location : Engine.ControlLocation} (hat : form.engine.At p c location) :
    ∀ a ∈ form.engine.arrays, a.definition.binding.startsWith p = false := by
  intro a ha
  cases location with
  | static i =>
    obtain ⟨hi, rfl⟩ := hat
    exact (hinv.shaped.control_array_apart form.engine_wf (List.mem_of_getElem? hi) ha).2
  | arrayItem j i k =>
    obtain ⟨b, item, hb, _, _, rfl⟩ := hat
    refine Bool.eq_false_iff.mpr fun hs => ?_
    obtain ⟨rest, hrest⟩ := Pointer.startsWith_iff.mp hs
    have hprefix : a.definition.binding.startsWith b.definition.binding = true :=
      Pointer.startsWith_iff.mpr ⟨Nat.repr i :: (c.definition.binding ++ rest), by
        rw [hrest, Engine.arrayItemPointer]
        simp⟩
    obtain ⟨l, hl⟩ := List.mem_iff_getElem?.mp ha
    by_cases hij : l = j
    · subst hij
      obtain rfl := Option.some.inj (hl.symm.trans hb)
      have hlen := congrArg List.length hrest
      simp [Engine.arrayItemPointer] at hlen
    · rw [(hinv.shaped.arrays_apart form.engine_wf hl hb hij).1] at hprefix
      cases hprefix

theorem StructureOrScalar.exact (hinv : form.Inv) (hinv' : form'.Inv) {target : InstanceIdentity}
    {binding : Pointer} {engine : Engine.Form} {t : Transition}
    (h : form.StructureOrScalar target binding engine form' (.ok t))
    (ht : ¬ (form.semanticKind target).any SemanticKind.isStructure →
      engine.itemTable = form.engine.itemTable) : form.ExactTopology form' t := by
  unfold StructureOrScalar at h
  split at h
  · exact h.exact hinv hinv'
  · rename_i hk
    exact h.exact hinv (ht hk)

theorem removeValue_exact (hinv : form.Inv) {target : InstanceIdentity} {t : Transition}
    (h : form.removeValue target = (form', .ok t)) : form.ExactTopology form' t := by
  have heffect := removeValue_effect hinv h
  rcases removeValue_cases h with ⟨_, _, hr⟩ | ⟨binding, engine, ⟨⟨node, hn, hallowed, hb⟩, he⟩, hs⟩
  · cases hr
  · refine hs.exact hinv heffect.inv fun hk => Engine.Form.removeValue_table ?_ he
    have hkind : form.semanticKind target = node.definition.semanticKind := by
      simp [semanticKind, hn]
    have hne := semanticKind_of_allowed rfl hallowed
    obtain ⟨g, hinst, hshows⟩ := node_shows hinv.shaped hn hb
    rw [hkind, hinst.semanticKind] at hk
    rw [hinst.semanticKind] at hne
    cases hshows with
    | control c location hfound _ => exact no_array_below hinv hfound
    | object o _ _ hg _ => rw [hg] at hk; exact absurd rfl hk
    | itemObject _ _ _ _ o _ _ _ _ _ hg _ => rw [hg] at hk; exact absurd rfl hk
    | array a _ _ hg _ => rw [hg] at hk; exact absurd rfl hk
    | unsupported u _ _ hg _ => rw [hg] at hne; exact absurd rfl hne

theorem replaceValue_exact (hinv : form.Inv) {target : InstanceIdentity} {value : Value}
    (hv : value.WF) {t : Transition} (h : form.replaceValue target value = (form', .ok t)) :
    form.ExactTopology form' t := by
  have heffect := replaceValue_effect hinv hv h
  rcases replaceValue_cases h with ⟨_, _, hr⟩ | ⟨binding, engine, ⟨_, he⟩, hs⟩
  · cases hr
  · refine hs.exact hinv heffect.inv fun hk => ?_
    simp only [replaceEdit, if_neg hk] at he
    exact Engine.Form.setValue_table he

theorem materialize_exact (hinv : form.Inv) {target : InstanceIdentity} {t : Transition}
    (h : form.materialize target = (form', .ok t)) : form.ExactTopology form' t := by
  have heffect := materialize_effect hinv h
  rcases materialize_cases h with ⟨_, _, hr⟩ | ⟨_, _, engine, _, _, hs⟩
  · cases hr
  · exact hs.exact hinv heffect.inv

theorem blur_exact {target : InstanceIdentity} {t : Transition}
    (h : form.blur target = (form', .ok t)) : form.ExactTopology form' t := by
  rcases blur_cases h with ⟨_, _, hr⟩ | ⟨node, _, engine, hn, _, _, _, he, rfl, hr⟩
  · cases hr
  · cases hr
    have hsame : form.SameNodes { form with engine } :=
      .of_table ⟨rfl, rfl⟩ (Engine.Form.blur_table he)
    have htarget : (({ form with engine } : Form).node target).isSome :=
      (hsame target).mpr (hn ▸ rfl)
    refine transition_exact hsame ?_ ?_
    · intro identity hmem
      split at hmem
      · obtain rfl := List.mem_singleton.mp hmem
        exact htarget
      · cases hmem
    · split
      · exact List.nodup_singleton _
      · exact List.nodup_nil

/-! ## The whole form -/

theorem applyExternalFindings_exact (hinv : form.Inv) {batch : ExternalFindingBatch}
    {t : Transition} (h : form.applyExternalFindings batch = (form', .ok t)) :
    form.ExactTopology form' t := by
  rcases applyExternalFindings_cases h with ⟨_, _, hr⟩ | ⟨stored, _, rfl, hr⟩
  · cases hr
  · cases hr
    have hsame : form.SameNodes (form.withBatch stored) := by
      unfold withBatch
      dsimp only
      split <;> exact .of_table ⟨rfl, rfl⟩ rfl
    refine transition_sublist hinv hsame ?_
    rw [← form.findingsByNode_fst NodeView.externalFindings]
    exact ListEdit.filterMap_zip_sublist
      (fun entry (after : InstanceIdentity × List (String × ExternalFinding)) =>
        entry.2 != after.2) _ _

theorem setFindingVisibility_exact (hinv : form.Inv) (policy : FindingVisibilityPolicy) :
    form.ExactTopology (form.setFindingVisibility policy).1
      (form.setFindingVisibility policy).2 := by
  have hinv' := (setFindingVisibility_effect hinv policy).inv
  refine changedNodes_exact hinv' ?_ _ _ _
  unfold setFindingVisibility
  dsimp only
  split <;> exact .of_table ⟨rfl, rfl⟩ rfl

theorem setReadOnly_exact (hinv : form.Inv) (readOnly : Bool) :
    form.ExactTopology (form.setReadOnly readOnly).1 (form.setReadOnly readOnly).2 := by
  have hinv' := (setReadOnly_effect hinv readOnly).inv
  refine changedNodes_exact hinv' ?_ _ _ _
  unfold setReadOnly
  dsimp only
  split <;> exact .of_table ⟨rfl, rfl⟩ rfl

theorem submitted_exact (hinv : form.Inv) : form.ExactTopology form.submitted
    (transition form.revisions form.submitted.revisions
      (form.submitted.changedNodes form.nodeObservations)) := by
  have hsame : form.SameNodes form.submitted :=
    .of_table ⟨rfl, rfl⟩ (Engine.Form.prepareSubmission_table form.engine)
  exact changedNodes_exact (prepareSubmission_effect hinv).inv hsame _ _ _

theorem reset_exact (hinv : form.Inv) : form.ExactTopology form.reset.1 form.reset.2 :=
  topologyTransition_exact hinv (reset_effect hinv).inv _ _ _

theorem reinitialize_exact (hinv : form.Inv) {formData : Value} (hwf : formData.WF)
    {t : Transition} (h : form.reinitialize formData = (form', .ok t)) :
    form.ExactTopology form' t := by
  have heffect := reinitialize_effect hinv hwf h
  rcases reinitialize_cases h with ⟨_, _, hr⟩ | ⟨_, _, _, hr⟩
  · cases hr
  · cases hr
    exact topologyTransition_exact hinv heffect.inv _ _ _

theorem transact_exact (hinv : form.Inv) {operations : List HostOperation}
    (hwf : ∀ o ∈ operations, o.WF) {t : Transition}
    (h : form.transact operations = (form', .ok t)) : form.ExactTopology form' t := by
  have heffect := transact_effect hinv hwf h
  rcases transact_cases hinv hwf h with ⟨_, _, hr⟩ | ⟨_, _, _, _, _, hr⟩
  · cases hr
  · cases hr
    exact topologyTransition_exact hinv heffect.inv _ _ _

theorem tryTransact_exact (hinv : form.Inv) {operations : List HostOperation}
    (hwf : ∀ o ∈ operations, o.WF) {closure : Except Unit Unit} {t : Transition}
    (h : form.tryTransact operations closure = (form', .ok t)) : form.ExactTopology form' t := by
  have heffect := tryTransact_effect hinv hwf h
  rcases tryTransact_cases hinv hwf h with ⟨_, _, hr⟩ | ⟨_, _, _, _, _, _, hr⟩
  · cases hr
  · cases hr
    exact topologyTransition_exact hinv heffect.inv _ _ _

/-! ## Every operation -/

theorem outcome_ok {ε : Type} {wrap : ε → OperationError} {result : Form × Except ε Transition}
    {t : Transition} (h : (outcome wrap result).2 = .ok t) :
    result = ((outcome wrap result).1, .ok t) :=
  Prod.ext rfl (mapError_eq_ok.mp h)

/-- What a successful operation says about nodes that come and go is exactly what happened. -/
theorem topology_exact (hreachable : formSystem.Reachable form) (operation : WellFormedOperation)
    {t : Transition} (h : (form.step operation.1).2 = .ok t) :
    form.ExactTopology (form.step operation.1).1 t := by
  have hinv := reachable_inv hreachable
  have ht := reachable_typedShown hreachable
  obtain ⟨operation, hwf⟩ := operation
  cases operation with
  | inputText target text => exact inputText_exact hinv (outcome_ok h)
  | blur target => exact blur_exact (outcome_ok h)
  | setValue target value => exact setValue_exact hinv (outcome_ok h)
  | setNull target => exact setNull_exact hinv (outcome_ok h)
  | removeValue target => exact removeValue_exact hinv (outcome_ok h)
  | replaceValue target value => exact replaceValue_exact hinv hwf (outcome_ok h)
  | materialize target => exact materialize_exact hinv (outcome_ok h)
  | appendItem array => exact appendItem_exact hinv (outcome_ok h)
  | insertItemBefore array before => exact insertItemBefore_exact hinv (outcome_ok h)
  | removeItem array item => exact removeItem_exact hinv (outcome_ok h)
  | moveItem direction array item => exact moveItem_exact hinv (outcome_ok h)
  | toggleChoice array value => exact toggleChoice_exact hinv (outcome_ok h)
  | transact operations => exact transact_exact hinv hwf (outcome_ok h)
  | tryTransact operations closure => exact tryTransact_exact hinv hwf (outcome_ok h)
  | applyExternalFindings batch => exact applyExternalFindings_exact hinv (outcome_ok h)
  | reset => cases h; exact reset_exact hinv
  | setFindingVisibility policy => cases h; exact setFindingVisibility_exact hinv policy
  | setReadOnly readOnly => cases h; exact setReadOnly_exact hinv readOnly
  | reinitialize formData => exact reinitialize_exact hinv hwf (outcome_ok h)
  | prepareSubmission =>
    rw [step, prepareSubmission_eq hinv ht] at h ⊢
    cases h
    exact submitted_exact hinv
  | prepareAdvisorySubmission =>
    rw [step, prepareAdvisorySubmission_eq hinv ht] at h ⊢
    cases h
    exact submitted_exact hinv

theorem topology_exact_append : ∃ t,
    (Sample.empty.step (.appendItem (Sample.empty.identity 1))).2 = .ok t ∧
    Sample.empty.ExactTopology
      (Sample.empty.step (.appendItem (Sample.empty.identity 1))).1 t :=
  ⟨_, rfl, topology_exact Sample.empty_reachable
    ⟨.appendItem (Sample.empty.identity 1), trivial⟩ rfl⟩

end Form

end Schemaform
