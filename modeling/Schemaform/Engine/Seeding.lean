import Mathlib.Data.List.Pairwise
import Schemaform.Engine.Progress
import Schemaform.Json.Outline

/-!
# Engine.Seeding

What seeding defaults adds to the data, and nothing else.

* `SeedTarget`: a place that may be seeded, with what is declared there.
* `SeedTarget.Seeds`: one default, absent below a present object.
* `Overlay`: the data with the defaults of some targets in their places. `foldl_overlay` for
  targets that are apart, in whatever order.
* `SeedStep`: one turn of the outer loops. `foldl_run`: a run of steps seeds the targets of the
  data it starts from.
* `seedDefaults_overlay`, `seedSteps_perm`, `seedDefaults_idem`.
-/

namespace Schemaform

/-! ## Well-formed data -/

theorem seedControlDefault_wf {annotations : DataSchemaAnnotations} {binding : Pointer}
    {formData : Value} (hdefaults : ∀ v ∈ annotations.defaults, v.WF) (h : formData.WF) :
    (Engine.seedControlDefault annotations binding formData).WF := by
  unfold Engine.seedControlDefault
  split
  · rename_i default hdefault
    split
    · exact h
    · cases hs : setBoundValue binding default formData with
      | none => exact h
      | some w => exact setBoundValue_wf h (hdefaults default (by simp [hdefault])) hs
  · exact h

theorem foldl_wf {α : Type} {f : Value → α → Value} {l : List α}
    (hf : ∀ v, v.WF → ∀ a ∈ l, (f v a).WF) {v : Value} (hv : v.WF) : (l.foldl f v).WF := by
  induction l generalizing v with
  | nil => exact hv
  | cons a l ih =>
    exact ih (fun v hv a ha => hf v hv a (List.mem_cons_of_mem _ ha)) (hf v hv a List.mem_cons_self)

theorem seedDefaults_wf {definition : Engine.FormDefinition} (hd : definition.WellFormed)
    {formData : Value} (h : formData.WF) : (definition.seedDefaults formData).WF := by
  unfold Engine.FormDefinition.seedDefaults
  refine foldl_wf (fun v hv a ha => ?_) (foldl_wf (fun v hv c hc => ?_) h)
  · dsimp only
    refine foldl_wf (fun v hv index _ => foldl_wf (fun v hv c hc => ?_) hv) ?_
    · exact seedControlDefault_wf ((hd.template_wf a ha).defaults_wf c hc) hv
    · split
      · exact seedControlDefault_wf (hd.array_defaults_wf a ha) hv
      · exact hv
  · exact seedControlDefault_wf (hd.defaults_wf c hc) hv

namespace Engine

theorem foldl_eq_self {α β : Type} {f : β → α → β} {l : List α} {b : β}
    (h : ∀ a ∈ l, f b a = b) : l.foldl f b = b := by
  induction l with
  | nil => rfl
  | cons a l ih =>
    rw [List.foldl_cons, h a List.mem_cons_self]
    exact ih fun c hc => h c (List.mem_cons_of_mem _ hc)

/-! ## One place -/

structure SeedTarget where
  binding : Pointer
  annotations : DataSchemaAnnotations
deriving DecidableEq, Repr

namespace SeedTarget

def seed (formData : Value) (target : SeedTarget) : Value :=
  seedControlDefault target.annotations target.binding formData

/-- The one declared default goes to an absent member of a present object. -/
structure Seeds (target : SeedTarget) (formData default : Value) : Prop where
  declared : target.annotations.defaults = [default]
  parent : bindingParentIsObject target.binding formData = true
  absent : Pointer.resolve target.binding formData = none

def Apart (target other : SeedTarget) : Prop := target.binding.Apart other.binding

variable {target other : SeedTarget} {v w default : Value}

theorem seed_of_seeds (h : target.Seeds v default) :
    setBoundValue target.binding default v = some (target.seed v) := by
  obtain ⟨w, hw⟩ : ∃ w, setBoundValue target.binding default v = some w :=
    setBoundValue_isSome (.inr h.parent) default
  rw [seed, seedControlDefault, h.declared]
  simp [h.parent, h.absent, hw]

theorem seed_of_not (h : ∀ default, ¬ target.Seeds v default) : target.seed v = v := by
  unfold seed seedControlDefault
  split
  · rename_i default hdefault
    split
    · rfl
    · rename_i hc
      simp only [Bool.or_eq_true, Bool.not_eq_true', not_or, Bool.not_eq_false,
        Option.not_isSome_iff_eq_none] at hc
      exact absurd ⟨hdefault, hc.1, hc.2⟩ (h default)
  · rfl

/-- Off the place nothing shows a change. -/
theorem outline_seed {q : Pointer} (hq : q.startsWith target.binding = false) :
    Pointer.outline q (target.seed v) = Pointer.outline q v := by
  by_cases h : ∃ default, target.Seeds v default
  · obtain ⟨default, h⟩ := h
    exact setBoundValue_outline h.parent (seed_of_seeds h) hq
  · rw [seed_of_not fun default hs => h ⟨default, hs⟩]

theorem outline_seed_at (h : target.Seeds v default) (r : Pointer) :
    Pointer.outline (target.binding ++ r) (target.seed v) = Pointer.outline r default := by
  rw [Pointer.outline, (setBoundValue_write (seed_of_seeds h)).below, Option.bind_some]
  rfl

/-- Seeding depends on what shows on the way to the place. -/
theorem seeds_congr (h : ∀ q, target.binding.startsWith q = true →
    Pointer.outline q w = Pointer.outline q v) (hs : target.Seeds v default) :
    target.Seeds w default where
  declared := hs.declared
  parent := by
    obtain ⟨parent, property, hp, hobject⟩ := bindingParentIsObject_iff.mp hs.parent
    refine bindingParentIsObject_iff.mpr ⟨parent, property, hp, ?_⟩
    rw [h parent (by simp [hp]), hobject]
  absent := by
    have hsome := Pointer.outline_isSome (h _ (Pointer.startsWith_self _))
    rw [hs.absent] at hsome
    exact Option.isNone_iff_eq_none.mp (by simpa using hsome)

theorem Apart.off (h : target.Apart other) {q : Pointer} (hq : other.binding.startsWith q = true) :
    q.startsWith target.binding = false := by
  refine Bool.eq_false_iff.mpr fun hs => ?_
  obtain ⟨r, hr⟩ := Pointer.startsWith_iff.mp hq
  obtain ⟨s, rfl⟩ := Pointer.startsWith_iff.mp hs
  refine absurd h.2 ?_
  rw [hr, List.append_assoc]
  simp

theorem seeds_seed_iff (h : target.Apart other) :
    other.Seeds (target.seed v) default ↔ other.Seeds v default :=
  ⟨seeds_congr fun _ hq => (outline_seed (h.off hq)).symm,
    seeds_congr fun _ hq => outline_seed (h.off hq)⟩

end SeedTarget

/-! ## Many places -/

/-- The data with the defaults of the targets that seed, and what it had everywhere else. -/
structure Overlay (targets : List SeedTarget) (v w : Value) : Prop where
  seeded : ∀ t ∈ targets, ∀ default, t.Seeds v default → ∀ r,
    Pointer.outline (t.binding ++ r) w = Pointer.outline r default
  kept : ∀ q, (∀ t ∈ targets, ∀ default, t.Seeds v default → q.startsWith t.binding = false) →
    Pointer.outline q w = Pointer.outline q v

section Overlay

variable {targets targets' : List SeedTarget} {v w w' : Value}

theorem foldl_overlay (h : targets.Pairwise SeedTarget.Apart) (v : Value) :
    Overlay targets v (targets.foldl SeedTarget.seed v) := by
  induction targets generalizing v with
  | nil => exact ⟨by simp, fun q _ => rfl⟩
  | cons t ts ih =>
    obtain ⟨ht, hts⟩ := List.pairwise_cons.mp h
    have hrest := ih hts (t.seed v)
    constructor
    · intro s hs default hseeds r
      rcases List.mem_cons.mp hs with rfl | hs
      · rw [← s.outline_seed_at hseeds r]
        refine hrest.kept _ fun u hu _ _ => ?_
        exact ((ht u hu).append_left r).1
      · exact hrest.seeded s hs default ((SeedTarget.seeds_seed_iff (ht s hs)).mpr hseeds) r
    · intro q hq
      have hoff : Pointer.outline q (t.seed v) = Pointer.outline q v := by
        by_cases hseeds : ∃ default, t.Seeds v default
        · obtain ⟨default, hseeds⟩ := hseeds
          exact SeedTarget.outline_seed (hq t List.mem_cons_self default hseeds)
        · rw [SeedTarget.seed_of_not fun default hs => hseeds ⟨default, hs⟩]
      rw [← hoff]
      refine hrest.kept q fun s hs default hseeds => ?_
      exact hq s (List.mem_cons_of_mem _ hs) default
        ((SeedTarget.seeds_seed_iff (ht s hs)).mp hseeds)

/-- The targets determine the overlay, in any order. -/
theorem Overlay.unique (h : Overlay targets v w) (h' : Overlay targets' v w')
    (hmem : ∀ t, t ∈ targets ↔ t ∈ targets') (hw : w.WF) (hw' : w'.WF) : w = w' := by
  refine Value.ext_outline hw hw' fun q => ?_
  by_cases hq : ∀ t ∈ targets, ∀ default, t.Seeds v default → q.startsWith t.binding = false
  · rw [h.kept q hq, h'.kept q fun t ht => hq t ((hmem t).mpr ht)]
  · push Not at hq
    obtain ⟨t, ht, default, hseeds, hstarts⟩ := hq
    obtain ⟨r, rfl⟩ := Pointer.startsWith_iff.mp (by simpa using hstarts)
    rw [h.seeded t ht default hseeds, h'.seeded t ((hmem t).mp ht) default hseeds]

/-- A seeded place holds its default. -/
theorem Overlay.resolve_seeded (h : Overlay targets v w) (hw : w.WF) {t : SeedTarget}
    (ht : t ∈ targets) {default : Value} (hd : default.WF) (hseeds : t.Seeds v default) :
    Pointer.resolve t.binding w = some default := by
  have hbelow := h.seeded t ht default hseeds
  have hroot := hbelow []
  rw [List.append_nil, Pointer.outline, Pointer.outline, Pointer.resolve_nil, Option.map_some,
    Option.map_eq_some_iff] at hroot
  obtain ⟨u, hu, -⟩ := hroot
  rw [hu, Value.ext_outline (Pointer.WF_resolve hw hu) hd fun r => ?_]
  rw [← hbelow r, Pointer.outline, Pointer.outline, Pointer.resolve_append, hu, Option.bind_some]

theorem apart_of_mem {t u : SeedTarget} (h : targets.Pairwise SeedTarget.Apart) (ht : t ∈ targets)
    (hu : u ∈ targets) (hne : t ≠ u) : t.Apart u := by
  have : Std.Symm SeedTarget.Apart := ⟨fun _ _ => Pointer.Apart.symm⟩
  exact h.forall ht hu hne

/-- What could be seeded has been. -/
theorem Overlay.settled (h : Overlay targets v w) (hapart : targets.Pairwise SeedTarget.Apart)
    {t : SeedTarget} (ht : t ∈ targets) (default : Value) : ¬ t.Seeds w default := by
  intro hseeds
  by_cases hv : ∃ default, t.Seeds v default
  · obtain ⟨default', hv⟩ := hv
    have hpresent := h.seeded t ht default' hv []
    rw [List.append_nil, Pointer.outline, hseeds.absent] at hpresent
    cases hpresent
  · refine hv ⟨default, SeedTarget.seeds_congr (fun q hq => ?_) hseeds⟩
    refine (h.kept q fun u hu default' hu' => ?_).symm
    have hne : u ≠ t := by
      rintro rfl
      exact hv ⟨default', hu'⟩
    exact (apart_of_mem hapart hu ht hne).off hq

end Overlay

/-! ## The loops -/

def ControlDefinition.seedTarget (control : ControlDefinition) : SeedTarget :=
  ⟨control.binding, control.annotations⟩

namespace ArrayDefinition

variable (array : ArrayDefinition)

def seedTarget : SeedTarget := ⟨array.binding, array.annotations⟩

def itemTargets (formData : Value) : List SeedTarget :=
  (List.range (arrayValues array.binding formData).length).flatMap fun index =>
    array.itemTemplate.controls.map fun control =>
      ⟨arrayItemPointer array.binding index ++ control.binding, control.annotations⟩

theorem mem_itemTargets {formData : Value} {t : SeedTarget} : t ∈ array.itemTargets formData ↔
    ∃ index < (arrayValues array.binding formData).length, ∃ c ∈ array.itemTemplate.controls,
      t = ⟨arrayItemPointer array.binding index ++ c.binding, c.annotations⟩ := by
  simp [itemTargets, eq_comm]

/-- The options of a multiple choice are the items themselves. -/
def ScalarItems : Prop :=
  array.isMultipleChoice = true → ∀ c ∈ array.itemTemplate.controls, c.binding = []

end ArrayDefinition

inductive SeedStep where
  | control (control : ControlDefinition)
  | array (array : ArrayDefinition)

namespace SeedStep

def binding : SeedStep → Pointer
  | .control c => c.binding
  | .array a => a.binding

/-- One turn of a loop of `seedDefaults`. -/
def run (formData : Value) : SeedStep → Value
  | .control c => seedControlDefault c.annotations c.binding formData
  | .array a =>
    let formData :=
      if a.isMultipleChoice then seedControlDefault a.annotations a.binding formData
      else formData
    (List.range (arrayValues a.binding formData).length).foldl (fun formData index =>
      a.itemTemplate.controls.foldl (fun formData c =>
        seedControlDefault c.annotations
          (arrayItemPointer a.binding index ++ c.binding) formData) formData) formData

/-- What a step can seed in the data it starts from. -/
def targets (formData : Value) : SeedStep → List SeedTarget
  | .control c => [c.seedTarget]
  | .array a => if a.isMultipleChoice then [a.seedTarget] else a.itemTargets formData

def Apart (step other : SeedStep) : Prop := step.binding.Apart other.binding

def WellFormed : SeedStep → Prop
  | .control c => ∀ d ∈ c.annotations.defaults, d.WF
  | .array a => (∀ d ∈ a.annotations.defaults, d.WF) ∧ a.itemTemplate.WellFormed ∧ a.ScalarItems

variable {step other : SeedStep} {v w : Value}

theorem foldl_itemTargets (array : ArrayDefinition) (v w : Value) :
    (array.itemTargets v).foldl SeedTarget.seed w =
      (List.range (arrayValues array.binding v).length).foldl (fun formData index =>
        array.itemTemplate.controls.foldl (fun formData control =>
          seedControlDefault control.annotations
            (arrayItemPointer array.binding index ++ control.binding) formData) formData) w := by
  rw [ArrayDefinition.itemTargets, List.foldl_flatMap]
  simp only [List.foldl_map]
  rfl

theorem arrayValue_isSome {p : Pointer} {index : Nat} (h : index < (arrayValues p v).length) :
    (Pointer.resolve (arrayItemPointer p index) v).isSome := by
  unfold arrayValues at h
  cases hv : Pointer.resolve p v with
  | none => simp [hv] at h
  | some c =>
    cases c with
    | array items =>
      have hi : index < items.length := by simpa [hv, Value.asArray] using h
      rw [arrayItemPointer, Pointer.resolve_append, hv, Option.bind_some, Pointer.resolve_cons,
        Value.child, Token.indexFor_repr hi, Option.bind_some, List.getElem?_eq_getElem hi]
      rfl
    | _ => simp [hv, Value.asArray] at h

/-- An item that is its own control is present. -/
theorem not_seeds_item {array : ArrayDefinition} (hscalar : array.ScalarItems)
    (hm : array.isMultipleChoice = true) {t : SeedTarget} (ht : t ∈ array.itemTargets v)
    (default : Value) : ¬ t.Seeds v default := by
  obtain ⟨index, hindex, c, hc, rfl⟩ := array.mem_itemTargets.mp ht
  intro hseeds
  have habsent := hseeds.absent
  rw [hscalar hm c hc, List.append_nil] at habsent
  have hpresent := arrayValue_isSome hindex
  rw [habsent] at hpresent
  cases hpresent

theorem run_eq (h : step.WellFormed) (v : Value) :
    step.run v = (step.targets v).foldl SeedTarget.seed v := by
  cases step with
  | control control => rfl
  | array array =>
    unfold run targets
    dsimp only
    cases hm : array.isMultipleChoice with
    | false => exact (foldl_itemTargets array v v).symm
    | true =>
      simp only [if_true, List.foldl_cons, List.foldl_nil]
      change _ = seedControlDefault array.annotations array.binding v
      rw [← foldl_itemTargets]
      exact foldl_eq_self fun t ht => SeedTarget.seed_of_not (not_seeds_item h.2.2 hm ht)

theorem binding_startsWith {t : SeedTarget} (ht : t ∈ step.targets v) :
    t.binding.startsWith step.binding = true := by
  cases step with
  | control control =>
    obtain rfl := List.mem_singleton.mp ht
    exact Pointer.startsWith_self _
  | array array =>
    simp only [targets] at ht
    split at ht
    · obtain rfl := List.mem_singleton.mp ht
      exact Pointer.startsWith_self _
    · obtain ⟨index, -, c, -, rfl⟩ := array.mem_itemTargets.mp ht
      rw [arrayItemPointer, List.append_assoc]
      exact Pointer.startsWith_append _ _

theorem Apart.off_target (h : step.Apart other) {t : SeedTarget} (ht : t ∈ step.targets v)
    {q : Pointer} (hq : q.startsWith other.binding = true) : t.binding.Apart q := by
  obtain ⟨r, hr⟩ := Pointer.startsWith_iff.mp (binding_startsWith ht)
  obtain ⟨s, rfl⟩ := Pointer.startsWith_iff.mp hq
  rw [hr]
  exact ((Pointer.Apart.append_left h r).symm.append_left s).symm

theorem length_arrayValues_outline (q : Pointer) (v : Value) : (arrayValues q v).length =
    ((Pointer.outline q v).bind Value.asArray).elim 0 List.length := by
  unfold arrayValues Pointer.outline
  cases Pointer.resolve q v with
  | none => rfl
  | some c => cases c <;> simp [Value.outline, Value.asArray]

theorem targets_congr (h : Pointer.outline step.binding w = Pointer.outline step.binding v) :
    step.targets w = step.targets v := by
  cases step with
  | control control => rfl
  | array array =>
    have hlength : (arrayValues array.binding w).length = (arrayValues array.binding v).length := by
      rw [length_arrayValues_outline, length_arrayValues_outline]
      exact congrArg (fun c => (c.bind Value.asArray).elim 0 List.length) h
    simp only [targets, ArrayDefinition.itemTargets, hlength]

theorem targets_apart (h : step.WellFormed) (v : Value) :
    (step.targets v).Pairwise SeedTarget.Apart := by
  cases step with
  | control control => exact List.pairwise_singleton _ _
  | array array =>
    simp only [targets]
    split
    · exact List.pairwise_singleton _ _
    · refine List.pairwise_flatMap.mpr ⟨fun index _ => ?_, ?_⟩
      · rw [List.pairwise_map]
        refine (List.pairwise_map.mp h.2.1.controls_apart).imp fun hcd => ?_
        exact (apart_append_iff _).mpr hcd
      · refine (List.nodup_range.imp fun hij => ?_)
        intro t ht u hu
        obtain ⟨c, -, rfl⟩ := List.mem_map.mp ht
        obtain ⟨d, -, rfl⟩ := List.mem_map.mp hu
        exact arrayItemPointer_apart _ hij _ _

theorem targets_wf (h : step.WellFormed) {t : SeedTarget} (ht : t ∈ step.targets v) :
    ∀ d ∈ t.annotations.defaults, d.WF := by
  cases step with
  | control c =>
    obtain rfl := List.mem_singleton.mp ht
    exact h
  | array a =>
    simp only [targets] at ht
    split at ht
    · obtain rfl := List.mem_singleton.mp ht
      exact h.1
    · obtain ⟨index, -, c, hc, rfl⟩ := a.mem_itemTargets.mp ht
      exact h.2.1.defaults_wf c hc

/-- A step is not seen from the places of the others. -/
theorem outline_run (hstep : step.WellFormed) (h : step.Apart other) (v : Value) :
    Pointer.outline other.binding (step.run v) = Pointer.outline other.binding v := by
  rw [run_eq hstep]
  refine (foldl_overlay (targets_apart hstep v) v).kept _ fun t ht _ _ => ?_
  exact (h.off_target ht (Pointer.startsWith_self _)).2

/-- A run of steps seeds what each of them sees at the start. -/
theorem foldl_run {steps : List SeedStep} (hwf : ∀ s ∈ steps, s.WellFormed)
    (hapart : steps.Pairwise SeedStep.Apart) (v : Value) :
    steps.foldl SeedStep.run v = (steps.flatMap (SeedStep.targets v)).foldl SeedTarget.seed v := by
  induction steps generalizing v with
  | nil => rfl
  | cons s ss ih =>
    obtain ⟨hs, hss⟩ := List.pairwise_cons.mp hapart
    have hswf := hwf s List.mem_cons_self
    rw [List.foldl_cons, ih (fun s hs => hwf s (List.mem_cons_of_mem _ hs)) hss,
      List.flatMap_cons, List.foldl_append, ← run_eq hswf]
    congr 1
    exact List.flatMap_congr fun u hu => targets_congr (outline_run hswf (hs u hu) v)

theorem flatMap_targets_apart {steps : List SeedStep} (hwf : ∀ s ∈ steps, s.WellFormed)
    (hapart : steps.Pairwise SeedStep.Apart) (v : Value) :
    (steps.flatMap (SeedStep.targets v)).Pairwise SeedTarget.Apart := by
  refine List.pairwise_flatMap.mpr ⟨fun s hs => targets_apart (hwf s hs) v, ?_⟩
  refine hapart.imp ?_
  intro s u hsu t ht x hx
  exact hsu.off_target ht (binding_startsWith hx)

/-- Every step sees the same after the run. -/
theorem targets_foldl_run {steps : List SeedStep} (hwf : ∀ s ∈ steps, s.WellFormed)
    (hapart : steps.Pairwise SeedStep.Apart) (v : Value) (hs : step ∈ steps) :
    step.targets (steps.foldl SeedStep.run v) = step.targets v := by
  have hoverlay := foldl_overlay (flatMap_targets_apart hwf hapart v) v
  rw [← foldl_run hwf hapart] at hoverlay
  cases step with
  | control c => rfl
  | array a =>
    by_cases hm : a.isMultipleChoice = true
    · simp only [targets, if_pos hm]
    · refine targets_congr (hoverlay.kept _ fun t ht _ _ => ?_)
      obtain ⟨s, hmem, ht⟩ := List.mem_flatMap.mp ht
      by_cases hsa : s = .array a
      · subst hsa
        simp only [targets, if_neg hm] at ht
        obtain ⟨index, -, c, -, rfl⟩ := a.mem_itemTargets.mp ht
        refine Bool.eq_false_iff.mpr fun hstarts => ?_
        obtain ⟨r, hr⟩ := Pointer.startsWith_iff.mp hstarts
        have hlength := congrArg List.length hr
        simp [arrayItemPointer, binding] at hlength
      · have : Std.Symm SeedStep.Apart := ⟨fun _ _ => Pointer.Apart.symm⟩
        have hapart' : s.Apart (.array a) := hapart.forall hmem hs hsa
        exact (hapart'.off_target ht (Pointer.startsWith_self _)).2

theorem run_wf (h : step.WellFormed) (hv : v.WF) : (step.run v).WF := by
  rw [run_eq h]
  exact foldl_wf (fun w hw t ht => seedControlDefault_wf (targets_wf h ht) hw) hv

theorem foldl_run_wf {steps : List SeedStep} (hwf : ∀ s ∈ steps, s.WellFormed) (hv : v.WF) :
    (steps.foldl SeedStep.run v).WF :=
  foldl_wf (fun _ hw s hs => run_wf (hwf s hs) hw) hv

/-- The order of the steps does not show. -/
theorem foldl_run_perm {steps steps' : List SeedStep} (hperm : steps'.Perm steps)
    (hwf : ∀ s ∈ steps, s.WellFormed) (hapart : steps.Pairwise SeedStep.Apart) (hv : v.WF) :
    steps'.foldl SeedStep.run v = steps.foldl SeedStep.run v := by
  have hwf' : ∀ s ∈ steps', s.WellFormed := fun s hs => hwf s (hperm.mem_iff.mp hs)
  have hapart' : steps'.Pairwise SeedStep.Apart :=
    (hperm.pairwise_iff fun h => Pointer.Apart.symm h).mpr hapart
  have hoverlay := foldl_overlay (flatMap_targets_apart hwf hapart v) v
  have hoverlay' := foldl_overlay (flatMap_targets_apart hwf' hapart' v) v
  rw [← foldl_run hwf hapart] at hoverlay
  rw [← foldl_run hwf' hapart'] at hoverlay'
  refine hoverlay'.unique hoverlay (fun t => ?_) (foldl_run_wf hwf' hv) (foldl_run_wf hwf hv)
  exact (hperm.flatMap_right _).mem_iff

/-- A second run finds nothing to seed. -/
theorem foldl_run_idem {steps : List SeedStep} (hwf : ∀ s ∈ steps, s.WellFormed)
    (hapart : steps.Pairwise SeedStep.Apart) (v : Value) :
    steps.foldl SeedStep.run (steps.foldl SeedStep.run v) = steps.foldl SeedStep.run v := by
  have htargets := flatMap_targets_apart hwf hapart v
  have hoverlay := foldl_overlay htargets v
  rw [← foldl_run hwf hapart] at hoverlay
  rw [foldl_run hwf hapart (steps.foldl SeedStep.run v)]
  refine foldl_eq_self fun t ht => SeedTarget.seed_of_not (hoverlay.settled htargets ?_)
  obtain ⟨s, hs, ht⟩ := List.mem_flatMap.mp ht
  rw [targets_foldl_run hwf hapart v hs] at ht
  exact List.mem_flatMap.mpr ⟨s, hs, ht⟩

end SeedStep

/-! ## The definition -/

namespace FormDefinition

variable {definition : FormDefinition} {formData : Value}

def seedSteps (definition : FormDefinition) : List SeedStep :=
  definition.controls.map .control ++ definition.arrays.map .array

theorem seedDefaults_eq (definition : FormDefinition) (formData : Value) :
    definition.seedDefaults formData = definition.seedSteps.foldl SeedStep.run formData := by
  rw [seedSteps, List.foldl_append, List.foldl_map, List.foldl_map]
  rfl

/-- A place the loops come to. -/
inductive SeedPlace (definition : FormDefinition) (formData : Value) :
    Pointer → DataSchemaAnnotations → Prop where
  | control {c : ControlDefinition} (hc : c ∈ definition.controls) :
      SeedPlace definition formData c.binding c.annotations
  | multipleChoice {a : ArrayDefinition} (ha : a ∈ definition.arrays)
      (hm : a.isMultipleChoice = true) : SeedPlace definition formData a.binding a.annotations
  | item {a : ArrayDefinition} (ha : a ∈ definition.arrays) {index : Nat}
      (hindex : index < (arrayValues a.binding formData).length) {c : ControlDefinition}
      (hc : c ∈ a.itemTemplate.controls) :
      SeedPlace definition formData (arrayItemPointer a.binding index ++ c.binding) c.annotations

theorem WellFormed.seedSteps (hd : definition.WellFormed)
    (hscalar : ∀ a ∈ definition.arrays, a.ScalarItems) :
    ∀ s ∈ definition.seedSteps, s.WellFormed := by
  intro s hs
  rcases List.mem_append.mp hs with hs | hs
  · obtain ⟨c, hc, rfl⟩ := List.mem_map.mp hs
    exact hd.defaults_wf c hc
  · obtain ⟨a, ha, rfl⟩ := List.mem_map.mp hs
    exact ⟨hd.array_defaults_wf a ha, hd.template_wf a ha, hscalar a ha⟩

theorem WellFormed.seedSteps_apart (hd : definition.WellFormed) :
    definition.seedSteps.Pairwise SeedStep.Apart := by
  have h := hd.leaves_apart
  have hbindings : definition.seedSteps.map SeedStep.binding =
      definition.controls.map (·.binding) ++ definition.arrays.map (·.binding) := by
    simp [FormDefinition.seedSteps, Function.comp_def, SeedStep.binding]
  rw [← hbindings, List.pairwise_map] at h
  exact h

theorem mem_targets_iff (hscalar : ∀ a ∈ definition.arrays, a.ScalarItems) {t : SeedTarget}
    {default : Value} :
    (t ∈ definition.seedSteps.flatMap (SeedStep.targets formData) ∧ t.Seeds formData default) ↔
      definition.SeedPlace formData t.binding t.annotations ∧ t.Seeds formData default := by
  refine and_congr_left fun hseeds => ⟨fun ht => ?_, fun hplace => ?_⟩
  · obtain ⟨s, hs, ht⟩ := List.mem_flatMap.mp ht
    rcases List.mem_append.mp hs with hs | hs
    · obtain ⟨c, hc, rfl⟩ := List.mem_map.mp hs
      obtain rfl := List.mem_singleton.mp ht
      exact .control hc
    · obtain ⟨a, ha, rfl⟩ := List.mem_map.mp hs
      simp only [SeedStep.targets] at ht
      split at ht
      · rename_i hm
        obtain rfl := List.mem_singleton.mp ht
        exact .multipleChoice ha hm
      · obtain ⟨index, hindex, c, hc, rfl⟩ := a.mem_itemTargets.mp ht
        exact .item ha hindex hc
  · obtain ⟨binding, annotations⟩ := t
    refine List.mem_flatMap.mpr ?_
    cases hplace with
    | control hc =>
      exact ⟨_, List.mem_append_left _ (List.mem_map_of_mem hc), List.mem_singleton_self _⟩
    | @multipleChoice a ha hm =>
      refine ⟨_, List.mem_append_right _ (List.mem_map_of_mem ha), ?_⟩
      simp only [SeedStep.targets, if_pos hm]
      exact List.mem_singleton_self _
    | @item a ha index hindex c hc =>
      have ht := a.mem_itemTargets.mpr ⟨index, hindex, c, hc, rfl⟩
      have hm : ¬ a.isMultipleChoice = true := fun hm =>
        SeedStep.not_seeds_item (hscalar a ha) hm ht default hseeds
      refine ⟨_, List.mem_append_right _ (List.mem_map_of_mem ha), ?_⟩
      simp only [SeedStep.targets, if_neg hm]
      exact ht

end FormDefinition

end Engine

end Schemaform
