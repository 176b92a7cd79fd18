import Schemaform.Form.Revisions
import Schemaform.Form.Tree

/-!
# Form.Presentation

The findings of the whole form against the findings of its nodes.

* `findingAttached_target`, `validationFindingAttached_target`: where the form presents a finding,
  the node attaches it.
* `PresentedFor`: why another node than the one that attaches a finding presents it.
* `findings_presented`: the form's list and the nodes' lists hold the same findings.
-/

namespace Schemaform

namespace Form

variable {form : Form} {identity : InstanceIdentity} {node : NodeView}

/-! ## Bound nodes -/

theorem identityForBinding_some {binding : Pointer} {target : InstanceIdentity}
    (h : form.identityForBinding binding = some target) :
    ∃ node, form.node target = some node ∧ node.binding = some binding := by
  have hbound := List.find?_some h
  rw [beq_iff_eq] at hbound
  exact Option.bind_eq_some_iff.mp hbound

theorem identityForBinding_of_bound (hinv : form.Inv) (hnode : form.node identity = some node)
    {binding : Pointer} (hb : node.binding = some binding) :
    ∃ target, form.identityForBinding binding = some target := by
  refine Option.isSome_iff_exists.mp (List.find?_isSome.mpr ⟨identity, ?_, ?_⟩)
  · rw [mem_instanceIdentities hinv, hnode]
    rfl
  · rw [beq_iff_eq, bindingOf, hnode]
    exact hb

theorem root_node (form : Form) : ∃ node, form.node form.root = some node ∧
    node.binding = none := by
  obtain ⟨definition, hd, _, hb⟩ := form.inner_wf.root
  refine ⟨_, node_of_resolves root_resolves hd, ?_⟩
  rw [NodeView.binding]
  exact hb

theorem node_self (hnode : form.node identity = some node) :
    node.form = form ∧ node.identity = identity := by
  obtain ⟨_, hform, hidentity, _⟩ := node_eq_some.mp hnode
  exact ⟨hform, hidentity⟩

/-! ## Attachment -/

theorem findingAttached_bound {location : Pointer} (hb : node.binding = some location) :
    node.findingAttached location = true := by
  rw [NodeView.findingAttached, hb]
  simp

theorem findingAttached_root (hnode : form.node form.root = some node)
    (hb : node.binding = none) {location : Pointer}
    (hnone : form.identityForBinding location = none) : node.findingAttached location = true := by
  obtain ⟨hform, hidentity⟩ := node_self hnode
  rw [NodeView.findingAttached, hb, hform, hidentity, hnone]
  simp

theorem findingAttached_target (form : Form) (location : Pointer) :
    ∃ node, form.node (form.identityForFindingLocation location) = some node ∧
      node.findingAttached location = true := by
  unfold identityForFindingLocation
  cases hfound : form.identityForBinding location with
  | some target =>
    obtain ⟨node, hnode, hb⟩ := identityForBinding_some hfound
    exact ⟨node, hnode, findingAttached_bound hb⟩
  | none =>
    obtain ⟨node, hnode, hb⟩ := form.root_node
    exact ⟨node, hnode, findingAttached_root hnode hb hfound⟩

theorem validationFindingAttached_target (form : Form) (finding : ValidationFinding) :
    ∃ node, form.node (form.validationTarget finding) = some node ∧
      node.validationFindingAttached finding = true := by
  unfold validationTarget
  cases hfound : form.identityForBinding (validationTargetLocation finding) with
  | some target =>
    obtain ⟨node, hnode, hb⟩ := identityForBinding_some hfound
    refine ⟨node, hnode, ?_⟩
    rw [NodeView.validationFindingAttached]
    by_cases hsame : validationTargetLocation finding = finding.instanceLocation
    · rw [if_pos hsame]
      exact findingAttached_bound hb
    · rw [if_neg hsame, hb]
      simp
  | none =>
    obtain ⟨node, hnode, hattached⟩ := form.findingAttached_target finding.instanceLocation
    refine ⟨node, hnode, ?_⟩
    rw [NodeView.validationFindingAttached, (node_self hnode).1, hfound]
    by_cases hsame : validationTargetLocation finding = finding.instanceLocation
    · rw [if_pos hsame, hsame]
      exact hattached
    · rw [if_neg hsame, hattached]
      simp

end Form

/-! ## Two nodes for one finding -/

def FindingObservation.instanceLocation : FindingObservation → Option Pointer
  | .validation finding => some finding.instanceLocation
  | .capability finding => some finding.instanceLocation
  | .external _ finding => some finding.instanceLocation
  | .validationFindingsTruncated _ | .indeterminate _ | .parse _ => none

/-- Why a node's finding is presented at another node: they are bound to the same location, or the
node is a multiple choice and the finding is at one of its items. -/
def NodeView.PresentedFor (node other : NodeView) (location : Pointer) : Prop :=
  (node.binding.isSome = true ∧ other.binding = node.binding) ∨
  (node.definition.multipleChoice = true ∧
    ∃ binding, node.binding = some binding ∧ NodeView.isDirectItemLocation binding location = true)

/-- The form's list and the nodes' lists hold the same findings. -/
structure Form.FindingsPresented (form : Form) : Prop where
  shown : ∀ view ∈ form.visibleFindings, ∃ node, form.node view.target = some node ∧
    view.finding ∈ node.visibleFindings
  listed : ∀ identity node, form.node identity = some node → ∀ finding ∈ node.visibleFindings,
    ∃ view ∈ form.visibleFindings, view.finding = finding ∧
      (view.target = identity ∨ ∃ other location, form.node view.target = some other ∧
        finding.instanceLocation = some location ∧ node.PresentedFor other location)

namespace Form

variable {form : Form} {identity : InstanceIdentity} {node : NodeView}

theorem presented_bound (hinv : form.Inv) (hnode : form.node identity = some node)
    {binding : Pointer} (hb : node.binding = some binding) : ∃ target other,
    form.identityForBinding binding = some target ∧ form.node target = some other ∧
      other.binding = node.binding := by
  obtain ⟨target, htarget⟩ := identityForBinding_of_bound hinv hnode hb
  obtain ⟨other, hother, hbinding⟩ := identityForBinding_some htarget
  exact ⟨target, other, htarget, hother, hbinding.trans hb.symm⟩

theorem presented_attached (hinv : form.Inv) (hnode : form.node identity = some node)
    {location : Pointer} (h : node.findingAttached location = true) :
    form.identityForFindingLocation location = identity ∨
    ∃ other, form.node (form.identityForFindingLocation location) = some other ∧
      node.PresentedFor other location := by
  obtain ⟨hform, hidentity⟩ := node_self hnode
  rw [NodeView.findingAttached] at h
  cases hb : node.binding with
  | none =>
    rw [hb] at h
    dsimp only at h
    rw [hform, hidentity, Bool.and_eq_true, beq_iff_eq, Option.isNone_iff_eq_none] at h
    refine .inl ?_
    rw [identityForFindingLocation, h.2, Option.getD_none]
    exact h.1.symm
  | some binding =>
    rw [hb] at h
    dsimp only at h
    rw [Bool.or_eq_true, Bool.and_eq_true, beq_iff_eq] at h
    refine .inr ?_
    rcases h with rfl | ⟨hmultiple, hitem⟩
    · obtain ⟨target, other, htarget, hother, hsame⟩ := presented_bound hinv hnode hb
      rw [identityForFindingLocation, htarget, Option.getD_some]
      refine ⟨other, hother, .inl ⟨?_, hsame⟩⟩
      rw [hb]
      rfl
    · obtain ⟨other, hother, _⟩ := form.findingAttached_target location
      exact ⟨other, hother, .inr ⟨hmultiple, binding, hb, hitem⟩⟩

theorem presented_validation (hinv : form.Inv) (hnode : form.node identity = some node)
    {finding : ValidationFinding} (h : node.validationFindingAttached finding = true) :
    form.validationTarget finding = identity ∨
    ∃ other, form.node (form.validationTarget finding) = some other ∧
      node.PresentedFor other finding.instanceLocation := by
  have hfallback (hattached : node.findingAttached finding.instanceLocation = true)
      (hnone : form.identityForBinding (validationTargetLocation finding) = none) :
      form.validationTarget finding = identity ∨
      ∃ other, form.node (form.validationTarget finding) = some other ∧
        node.PresentedFor other finding.instanceLocation := by
    rw [validationTarget, hnone, Option.getD_none]
    exact presented_attached hinv hnode hattached
  rw [NodeView.validationFindingAttached, (node_self hnode).1] at h
  by_cases hsame : validationTargetLocation finding = finding.instanceLocation
  · rw [if_pos hsame, hsame] at h
    cases hfound : form.identityForBinding (validationTargetLocation finding) with
    | none => exact hfallback h hfound
    | some target =>
      have hpresented := presented_attached hinv hnode h
      rw [identityForFindingLocation, ← hsame, hfound, Option.getD_some] at hpresented
      rw [validationTarget, hfound, Option.getD_some]
      rwa [hsame] at hpresented
  · rw [if_neg hsame, Bool.or_eq_true, Bool.and_eq_true, beq_iff_eq,
      Option.isNone_iff_eq_none] at h
    rcases h with hb | ⟨hattached, hnone⟩
    · obtain ⟨target, other, htarget, hother, hbinding⟩ := presented_bound hinv hnode hb
      rw [validationTarget, htarget, Option.getD_some]
      refine .inr ⟨other, hother, .inl ⟨?_, hbinding⟩⟩
      rw [hb]
      rfl
    · exact hfallback hattached hnone

/-! ## The lists -/

theorem mem_visibleFindings {view : FindingView} : view ∈ form.visibleFindings ↔
    (∃ finding ∈ form.validationFindings, form.validationFindingVisible finding = true ∧
      view = ⟨form.validationTarget finding, .validation finding⟩) ∨
    (∃ finding ∈ form.aggregateFindings, view = ⟨form.root, finding⟩) ∨
    (∃ finding ∈ form.definition.inner.capabilityFindings,
      view = ⟨form.identityForFindingLocation finding.instanceLocation, .capability finding⟩) ∨
    (∃ batch ∈ form.externalFindingBatches, ∃ finding ∈ batch.findings,
      form.externalFindingVisible finding = true ∧
      view = ⟨form.identityForFindingLocation finding.instanceLocation,
        .external batch.source finding⟩) ∨
    ∃ target ∈ form.instanceIdentities, ∃ node kind, form.node target = some node ∧
      node.parseBlocker = some kind ∧ view = ⟨target, .parse kind⟩ := by
  simp only [visibleFindings, List.mem_append, List.mem_map, List.mem_filter, List.mem_flatMap,
    List.mem_filterMap, Option.map_eq_some_iff, Option.bind_eq_some_iff, or_assoc, and_assoc,
    exists_and_left, eq_comm (a := view)]
  grind

theorem aggregateFindings_eq (hnode : form.node identity = some node) :
    node.aggregateFindings = if identity = form.root then form.aggregateFindings else [] := by
  obtain ⟨hform, hidentity⟩ := node_self hnode
  unfold NodeView.aggregateFindings Form.aggregateFindings
  rw [hform, hidentity]
  by_cases hroot : identity = form.root
  · cases form.aggregateValidationOutcomeVisible <;> simp [hroot]
    split <;> rfl
  · simp [hroot]

theorem mem_nodeFindings (hnode : form.node identity = some node) {finding : FindingObservation} :
    finding ∈ node.visibleFindings ↔
    (∃ f ∈ form.validationFindings, form.validationFindingVisible f = true ∧
      node.validationFindingAttached f = true ∧ finding = .validation f) ∨
    (identity = form.root ∧ finding ∈ form.aggregateFindings) ∨
    (∃ f ∈ form.definition.inner.capabilityFindings,
      node.findingAttached f.instanceLocation = true ∧ finding = .capability f) ∨
    (∃ batch ∈ form.externalFindingBatches, ∃ f ∈ batch.findings,
      form.externalFindingVisible f = true ∧ node.findingAttached f.instanceLocation = true ∧
      finding = .external batch.source f) ∨
    ∃ kind, node.parseBlocker = some kind ∧ finding = .parse kind := by
  unfold NodeView.visibleFindings NodeView.validationFindings NodeView.capabilityFindings
    NodeView.externalFindings
  rw [aggregateFindings_eq hnode, (node_self hnode).1]
  simp only [List.mem_append, List.mem_map, List.mem_filter, List.mem_flatMap, Bool.and_eq_true,
    List.mem_ite_nil_right, Option.mem_toList, Option.map_eq_some_iff, or_assoc, and_assoc]
  refine or_congr ?_ (or_congr Iff.rfl (or_congr ?_ (or_congr ?_ ?_)))
  · constructor
    · rintro ⟨f, hf, hattached, hvisible, rfl⟩
      exact ⟨f, hf, hvisible, hattached, rfl⟩
    · rintro ⟨f, hf, hvisible, hattached, rfl⟩
      exact ⟨f, hf, hattached, hvisible, rfl⟩
  · constructor
    · rintro ⟨f, hf, hattached, rfl⟩
      exact ⟨f, hf, hattached, rfl⟩
    · rintro ⟨f, hf, hattached, rfl⟩
      exact ⟨f, hf, hattached, rfl⟩
  · constructor
    · rintro ⟨_, ⟨batch, hbatch, f, hf, hattached, hvisible, rfl⟩, rfl⟩
      exact ⟨batch, hbatch, f, hf, hvisible, hattached, rfl⟩
    · rintro ⟨batch, hbatch, f, hf, hvisible, hattached, rfl⟩
      exact ⟨_, ⟨batch, hbatch, f, hf, hattached, hvisible, rfl⟩, rfl⟩
  · constructor
    · rintro ⟨kind, hkind, rfl⟩
      exact ⟨kind, hkind, rfl⟩
    · rintro ⟨kind, hkind, rfl⟩
      exact ⟨kind, hkind, rfl⟩

/-! ## Agreement -/

/-- Every finding of every category, at the node the form presents it at and back. -/
theorem findings_presented (h : formSystem.Reachable form) : form.FindingsPresented := by
  have hinv := reachable_inv h
  constructor
  · intro view hview
    rcases mem_visibleFindings.mp hview with ⟨f, hf, hvisible, rfl⟩ | ⟨f, hf, rfl⟩ | ⟨f, hf, rfl⟩ |
      ⟨batch, hbatch, f, hf, hvisible, rfl⟩ | ⟨target, _, node, kind, hnode, hparse, rfl⟩
    · obtain ⟨node, hnode, hattached⟩ := form.validationFindingAttached_target f
      exact ⟨node, hnode, (mem_nodeFindings hnode).mpr (.inl ⟨f, hf, hvisible, hattached, rfl⟩)⟩
    · obtain ⟨node, hnode, _⟩ := form.root_node
      exact ⟨node, hnode, (mem_nodeFindings hnode).mpr (.inr (.inl ⟨rfl, hf⟩))⟩
    · obtain ⟨node, hnode, hattached⟩ := form.findingAttached_target f.instanceLocation
      exact ⟨node, hnode, (mem_nodeFindings hnode).mpr (.inr (.inr (.inl ⟨f, hf, hattached, rfl⟩)))⟩
    · obtain ⟨node, hnode, hattached⟩ := form.findingAttached_target f.instanceLocation
      exact ⟨node, hnode, (mem_nodeFindings hnode).mpr
        (.inr (.inr (.inr (.inl ⟨batch, hbatch, f, hf, hvisible, hattached, rfl⟩))))⟩
    · exact ⟨node, hnode, (mem_nodeFindings hnode).mpr
        (.inr (.inr (.inr (.inr ⟨kind, hparse, rfl⟩))))⟩
  · intro identity node hnode finding hfinding
    rcases (mem_nodeFindings hnode).mp hfinding with ⟨f, hf, hvisible, hattached, rfl⟩ |
      ⟨hroot, hf⟩ | ⟨f, hf, hattached, rfl⟩ | ⟨batch, hbatch, f, hf, hvisible, hattached, rfl⟩ |
      ⟨kind, hparse, rfl⟩
    · refine ⟨_, mem_visibleFindings.mpr (.inl ⟨f, hf, hvisible, rfl⟩), rfl, ?_⟩
      refine (presented_validation hinv hnode hattached).imp_right ?_
      rintro ⟨other, hother, hfor⟩
      exact ⟨other, _, hother, rfl, hfor⟩
    · exact ⟨_, mem_visibleFindings.mpr (.inr (.inl ⟨finding, hf, rfl⟩)), rfl, .inl hroot.symm⟩
    · refine ⟨_, mem_visibleFindings.mpr (.inr (.inr (.inl ⟨f, hf, rfl⟩))), rfl, ?_⟩
      refine (presented_attached hinv hnode hattached).imp_right ?_
      rintro ⟨other, hother, hfor⟩
      exact ⟨other, _, hother, rfl, hfor⟩
    · refine ⟨_, mem_visibleFindings.mpr
        (.inr (.inr (.inr (.inl ⟨batch, hbatch, f, hf, hvisible, rfl⟩)))), rfl, ?_⟩
      refine (presented_attached hinv hnode hattached).imp_right ?_
      rintro ⟨other, hother, hfor⟩
      exact ⟨other, _, hother, rfl, hfor⟩
    · have hcurrent : identity ∈ form.instanceIdentities := by
        rw [mem_instanceIdentities hinv, hnode]
        rfl
      exact ⟨_, mem_visibleFindings.mpr (.inr (.inr (.inr (.inr
        ⟨identity, hcurrent, node, kind, hnode, hparse, rfl⟩)))), rfl, .inl rfl⟩

end Form

/-! ## A multiple choice and its member -/

namespace Sample

def outside : ExternalFinding := ⟨"review", ["a", "0"], .object [], false⟩

/-- A finding on the member of a multiple choice, visible at once. -/
def judged : Form :=
  formSystem.run chosen [⟨.setFindingVisibility ⟨.immediate, .immediate⟩, trivial⟩,
    ⟨.applyExternalFindings ⟨"server", ⟨0, 0⟩, [outside]⟩, by
      change ∀ finding ∈ [outside], finding.parameters.WF
      decide⟩]

theorem judged_reachable : formSystem.Reachable judged := chosen_reachable.run _

end Sample

namespace Form

open Sample

theorem findings_presented_judged : judged.FindingsPresented := findings_presented judged_reachable

/-- The array shows the finding of its member, and the form presents it at the member. -/
theorem member_finding_shown_twice : formSystem.Reachable judged ∧
    (∃ node, judged.node (judged.identity 1) = some node ∧
      .external "server" outside ∈ node.visibleFindings) ∧
    (⟨judged.identity 1, .external "server" outside⟩ : FindingView) ∉ judged.visibleFindings ∧
    judged.visibleFindings =
      [⟨judged.itemIdentity 2 (judged.item 1), .external "server" outside⟩] :=
  ⟨judged_reachable, ⟨_, rfl, by decide⟩, by decide, by decide⟩

end Form

end Schemaform
