import Schemaform.Engine.Seeding
import Schemaform.Form.Check
import Schemaform.Form.Effect

/-!
# Form.Reachable

The forms an application can hold.

* `build_ok`: what `FormBuilder.build` returns.
* `reachable_inv`, `reachable_typedShown`, `reachable_ordered`: the invariants hold of every
  reachable form.
* `reachable_effect`: every operation on a reachable form has an effect.
* `Sample`: a list of strings at `/a`.
-/

namespace Schemaform

namespace Form

variable {form : Form}

/-! ## Built forms -/

theorem new_ok {id : Nat} {definition : FormDefinition} {formData : Value}
    {limits : FormDataLimits} {visibility : FindingVisibilityPolicy}
    {externalFindingLimits : ExternalFindingLimits}
    (h : Form.new id definition formData limits visibility externalFindingLimits = .ok form) :
    ∃ engine, definition.inner.engine.createForm formData = .ok engine ∧
      form = {
        definition
        engine
        validation := validate definition limits engine.formData
        externalFindingBatches := []
        externalFindingLimits
        limits
        findingVisibility := visibility
        readOnly := false
        id } := by
  unfold Form.new at h
  dsimp only at h
  split at h
  · cases h
  obtain ⟨_, _, h⟩ := bind_eq_ok.mp h
  obtain ⟨_, _, h⟩ := bind_eq_ok.mp h
  split at h
  · cases h
  · rename_i engine he
    cases h
    exact ⟨engine, he, rfl⟩

theorem build_ok {builder : FormBuilder} {id : Nat} (hwf : builder.formData.WF)
    (h : builder.build id = .ok form) : ∃ formData engine, formData.WF ∧
      builder.definition.inner.engine.createForm formData = .ok engine ∧
      form = {
        definition := builder.definition
        engine
        validation := validate builder.definition builder.limits engine.formData
        externalFindingBatches := []
        externalFindingLimits := builder.externalFindingLimits
        limits := builder.limits
        findingVisibility := builder.visibility
        readOnly := builder.readOnly
        id } := by
  obtain ⟨built, hnew, h⟩ := bind_eq_ok.mp h
  obtain ⟨engine, he, rfl⟩ := new_ok hnew
  cases h
  refine ⟨_, engine, ?_, he, rfl⟩
  split
  · exact seedDefaults_wf builder.definition.wellFormed.engine hwf
  · exact hwf

theorem build_inv {builder : FormBuilder} {id : Nat} (hwf : builder.formData.WF)
    (h : builder.build id = .ok form) : form.Inv := by
  obtain ⟨formData, engine, hwf, he, rfl⟩ := build_ok hwf h
  exact Engine.Form.createForm_inv hwf he

/-! ## Reachable forms -/

theorem inv_invariant : formSystem.Invariant Form.Inv where
  init := fun _ ⟨_, _, hwf, h⟩ => build_inv hwf h
  step := fun _ operation hinv => (step_effect hinv operation).inv

theorem reachable_inv (h : formSystem.Reachable form) : form.Inv := inv_invariant.reachable h

theorem reachable_effect (h : formSystem.Reachable form) (operation : WellFormedOperation) :
    form.Effect (form.step operation.1).1 := step_effect (reachable_inv h) operation

/-- An invariant may rely on the engine's. -/
theorem reachable_induction {P : Form → Prop} (hinit : ∀ form, formSystem.init form → P form)
    (hstep : ∀ form operation, form.Inv → P form → P (formSystem.step form operation))
    (h : formSystem.Reachable form) : P form := by
  have hboth : formSystem.Invariant fun form => form.Inv ∧ P form := {
    init := fun form hi => ⟨inv_invariant.init form hi, hinit form hi⟩
    step := fun form operation h =>
      ⟨inv_invariant.step form operation h.1, hstep form operation h.1 h.2⟩ }
  exact (hboth.reachable h).2

theorem createForm_clear {definition : Engine.FormDefinition} {formData : Value}
    {engine : Engine.Form} (h : definition.createForm formData = .ok engine) :
    ∀ c ∈ engine.allControls, c.hasEditState = false := by
  unfold Engine.FormDefinition.createForm at h
  split at h
  · cases h
  · cases h
    intro c hc
    rcases List.mem_append.mp hc with hc | hc
    · obtain ⟨d, _, rfl⟩ := List.mem_map.mp hc
      rfl
    · obtain ⟨item, hitem, hc⟩ := List.mem_flatMap.mp hc
      obtain ⟨a, ha, hi⟩ := List.mem_flatMap.mp hitem
      obtain ⟨_, m, hitems⟩ := Engine.mem_freshArrays formData ha
      rw [hitems] at hi
      obtain ⟨identity, rfl⟩ := Engine.mem_freshArrayItems hi
      exact Engine.mem_new_controls hc

theorem reachable_typedShown (h : formSystem.Reachable form) : form.TypedShown := by
  refine reachable_induction (fun form hinit => ?_) (fun form operation hinv ht => ?_) h
  · obtain ⟨builder, id, hwf, hb⟩ := hinit
    obtain ⟨_, engine, _, he, rfl⟩ := build_ok hwf hb
    have hclear := createForm_clear he
    refine ⟨fun c hc hs => ?_, fun a ha item hitem c hc hs => ?_⟩
    · rw [hclear c (List.mem_append_left _ hc)] at hs
      cases hs
    · rw [hclear c (List.mem_append_right _ (List.mem_flatMap.mpr
        ⟨item, List.mem_flatMap.mpr ⟨a, ha, hitem⟩, hc⟩))] at hs
      cases hs
  · exact (step_effect hinv operation).typed ht

theorem reachable_ordered (h : formSystem.Reachable form) : form.Ordered := by
  refine reachable_induction (fun form hinit => ?_) (fun form operation hinv hord => ?_) h
  · obtain ⟨builder, id, hwf, hb⟩ := hinit
    obtain ⟨_, _, _, _, rfl⟩ := build_ok hwf hb
    exact ordered_nil rfl
  · exact (step_effect hinv operation).ordered hord

end Form

/-! ## A list of strings -/

namespace Sample

def item : Engine.ControlDefinition where
  binding := []
  parentBinding := none
  kind := .string
  choices := []
  acceptsNull := false
  annotations := {}
  creationSeed := some (.string "")
  required := true

def array : Engine.ArrayDefinition where
  binding := ["a"]
  parentBinding := none
  annotations := {}
  required := false
  creationSeed := .array []
  minItems := none
  maxItems := none
  uniqueItems := false
  itemTemplate := ⟨[item], [], .string ""⟩

/-- One array of scalars below the root, and a validator that accepts everything. -/
def listInner (array : Engine.ArrayDefinition) (item : Engine.ControlDefinition) :
    DefinitionInner where
  engine := ⟨[], [], [array], [], {}⟩
  validator := ⟨fun _ => []⟩
  parser := Engine.Sample.parser
  nodes := [.root {} [1], .showing 1 none (generatedArray array) [2],
    .showing 2 (some 1) (generatedControl (some array.binding) item) []]
  annotationScopes := annotationScopesOf ⟨[], [], [array], [], {}⟩
  capabilityFindings := []

def strings : FormDefinition where
  inner := listInner array item
  wellFormed :=
    DefinitionInner.wellFormed_of_checked (by decide) (by decide) (by decide) (by decide) rfl

def formData (values : List Value) : Value := .object [("a", .array values)]

/-- The form built on an empty list. -/
def empty : Form where
  definition := strings
  engine := {
    controls := []
    arrays := [⟨array, [], false⟩]
    nextItemIdentity := 1
    baselineArrayIdentities := [[]]
    baseline := formData []
    formData := formData []
    externalFindingBatches := []
    submissionAttempted := false
    dataRevision := 0
    stateRevision := 0 }
  validation := .valid
  externalFindingBatches := []
  externalFindingLimits := {}
  limits := {}
  findingVisibility := {}
  readOnly := false
  id := 0

theorem empty_reachable : formSystem.Reachable empty :=
  .init ⟨{ definition := strings, formData := formData [] }, 0, by decide, rfl⟩

/-- The form built on a list of two strings. -/
def built : Form :=
  { empty with engine := { empty.engine with
      arrays := [⟨array, [⟨1, [⟨item, none, none, false⟩]⟩, ⟨2, [⟨item, none, none, false⟩]⟩],
        false⟩]
      nextItemIdentity := 3
      baselineArrayIdentities := [[1, 2]]
      baseline := formData [.string "x", .string "y"]
      formData := formData [.string "x", .string "y"] } }

theorem built_reachable : formSystem.Reachable built := .init ⟨
  { definition := strings, formData := formData [.string "x", .string "y"] }, 0, by decide, rfl⟩

/-- `z` typed into the first item and left, the second removed, and a third that came and went. -/
def edited : Form :=
  formSystem.run built [⟨.inputText ⟨0, 2, some ⟨0, 1⟩⟩ "z", trivial⟩,
    ⟨.blur ⟨0, 2, some ⟨0, 1⟩⟩, trivial⟩, ⟨.appendItem (built.identity 1), trivial⟩,
    ⟨.removeItem (built.identity 1) (built.item 3), trivial⟩,
    ⟨.removeItem (built.identity 1) (built.item 2), trivial⟩]

theorem edited_reachable : formSystem.Reachable edited := built_reachable.run _

/-! ## A number -/

/-- A number that is annotated `writeOnly`. -/
def secret : Engine.ControlDefinition where
  binding := ["n"]
  parentBinding := none
  kind := .number
  choices := []
  acceptsNull := false
  annotations := { writeOnly := true }
  creationSeed := none
  required := false

def secretsInner : DefinitionInner where
  engine := ⟨[secret], [], [], [], {}⟩
  validator := ⟨fun _ => []⟩
  parser := Engine.Sample.parser
  nodes := [.root {} [1], .showing 1 none (generatedControl none secret) []]
  annotationScopes := annotationScopesOf ⟨[secret], [], [], [], {}⟩
  capabilityFindings := []

def secrets : FormDefinition where
  inner := secretsInner
  wellFormed :=
    DefinitionInner.wellFormed_of_checked (by decide) (by decide) (by decide) (by decide) rfl

/-- The form built on the number five. -/
def five : Form where
  definition := secrets
  engine := {
    controls := [⟨secret, none, none, false⟩]
    arrays := []
    nextItemIdentity := 1
    baselineArrayIdentities := []
    baseline := .object [("n", .number "5")]
    formData := .object [("n", .number "5")]
    externalFindingBatches := []
    submissionAttempted := false
    dataRevision := 0
    stateRevision := 0 }
  validation := .valid
  externalFindingBatches := []
  externalFindingLimits := {}
  limits := {}
  findingVisibility := {}
  readOnly := false
  id := 0

theorem five_reachable : formSystem.Reachable five :=
  .init ⟨{ definition := secrets, formData := .object [("n", .number "5")] }, 0, by decide, rfl⟩

end Sample

end Schemaform
