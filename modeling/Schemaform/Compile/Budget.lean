import Schemaform.Compile.ExpandSpec

/-!
# Compile.Budget

An expansion that ends within its budget of visits does the same with more to spend.

* `Richer`: a budget that allows at least as many more visits, under a bound at least as high.
* `Level`: traversals as far from where they began.
* `includeValidationResources_level`, `expandReferences_level`: what is found does not depend on the
  budget, nor on the resources used before.
-/

namespace Schemaform.Engine

open Resources (ResourceGraph GraphLocation)

/-- `richer` allows as many more visits as `budget`. -/
structure Richer (budget richer : ProjectionTraversal) : Prop where
  maximum : budget.maximum ≤ richer.maximum
  rest : budget.maximum + richer.observed ≤ richer.maximum + budget.observed

/-- Both have gone on by the same number of visits. -/
def Level (budget richer traversal traversal' : ProjectionTraversal) : Prop :=
  ∃ visits, traversal = ⟨budget.maximum, budget.observed + visits⟩ ∧
    traversal' = ⟨richer.maximum, richer.observed + visits⟩

/-- A relation of used resources that using one more keeps. -/
def KeptByUse (used : List String → List String → Prop) : Prop :=
  ∀ left right resource, used left right →
    used (insertValue left resource) (insertValue right resource)

variable {budget richer : ProjectionTraversal} {graph : ResourceGraph}
  {activeLocations : List SchemaIdentity} {used : List String → List String → Prop}

theorem level_start (budget richer : ProjectionTraversal) : Level budget richer budget richer :=
  ⟨0, rfl, rfl⟩

theorem visit_level (hricher : Richer budget richer)
    {traversal traversal' after : ProjectionTraversal}
    (hlevel : Level budget richer traversal traversal') (h : traversal.visit = .ok after) :
    ∃ after', traversal'.visit = .ok after' ∧ Level budget richer after after' := by
  obtain ⟨visits, rfl, rfl⟩ := hlevel
  obtain ⟨hless, rfl⟩ := visit_ok.mp h
  have hmore : richer.observed + visits + 1 ≤ richer.maximum := by
    have := hricher.rest
    simp only at hless
    omega
  exact ⟨⟨richer.maximum, richer.observed + visits + 1⟩, visit_ok.mpr ⟨hmore, rfl⟩, visits + 1,
    rfl, rfl⟩

/-! ## Validation resources -/

structure LevelValidation (budget richer : ProjectionTraversal)
    (used : List String → List String → Prop) (state state' : ValidationState) : Prop where
  traversal : Level budget richer state.traversal state'.traversal
  used : used state.usedResources state'.usedResources
  visited : state.visited = state'.visited

theorem includeLocation_level (hricher : Richer budget richer) (hused : KeptByUse used)
    {location : GraphLocation} {state state' after : ValidationState} {pushed : List GraphLocation}
    (hlevel : LevelValidation budget richer used state state')
    (h : includeLocation graph location state = .ok (after, pushed)) :
    ∃ after', includeLocation graph location state' = .ok (after', pushed) ∧
      LevelValidation budget richer used after after' := by
  obtain ⟨traversal, hvisit, h⟩ := bind_eq_ok.mp h
  obtain ⟨traversal', hvisit', htraversal⟩ := visit_level hricher hlevel.traversal hvisit
  unfold includeLocation
  rw [hvisit']
  dsimp only at h ⊢
  rw [hlevel.visited] at h
  by_cases hseen : state'.visited.contains (schemaIdentity location) = true
  · rw [if_pos hseen] at h
    cases h
    refine ⟨⟨traversal', state'.usedResources, state'.visited⟩, ?_, htraversal, hlevel.used, rfl⟩
    show (if state'.visited.contains (schemaIdentity location) = true then _ else _) = _
    rw [if_pos hseen]
    rfl
  · rw [if_neg hseen] at h
    obtain ⟨targets, htargets, h⟩ := bind_eq_ok.mp h
    obtain ⟨children, hchildren, h⟩ := bind_eq_ok.mp h
    cases h
    refine ⟨⟨traversal', insertValue state'.usedResources location.resource,
      schemaIdentity location :: state'.visited⟩, ?_, htraversal, hused _ _ _ hlevel.used, rfl⟩
    show (if state'.visited.contains (schemaIdentity location) = true then _ else _) = _
    rw [if_neg hseen]
    exact bind_eq_ok.mpr ⟨targets, htargets, bind_eq_ok.mpr ⟨children, hchildren, rfl⟩⟩

theorem includeValidationResources_level (hricher : Richer budget richer) (hkept : KeptByUse used)
    {location : GraphLocation} {usedResources usedResources' usedAfter : List String}
    {traversal traversal' after : ProjectionTraversal}
    (hlevel : Level budget richer traversal traversal') (hused : used usedResources usedResources')
    (h : includeValidationResources graph location usedResources traversal =
      .ok (usedAfter, after)) :
    ∃ usedAfter' after', includeValidationResources graph location usedResources' traversal' =
        .ok (usedAfter', after') ∧ Level budget richer after after' ∧
      used usedAfter usedAfter' := by
  obtain ⟨state, hrun, h⟩ := bind_eq_ok.mp h
  cases h
  obtain ⟨visits, rfl, rfl⟩ := hlevel
  have hstart : LevelValidation budget richer used
      ⟨⟨budget.maximum, budget.observed + visits⟩, usedResources, []⟩
      ⟨⟨richer.maximum, richer.observed + visits⟩, usedResources', []⟩ :=
    ⟨⟨visits, rfl, rfl⟩, hused, rfl⟩
  have hwork (node : GraphLocation) (state state' after : ValidationState)
      (pushed : List GraphLocation) (hlevel : LevelValidation budget richer used state state')
      (h : includeLocation graph node state = .ok (after, pushed)) :=
    includeLocation_level hricher hkept hlevel h
  obtain ⟨state', hrun', hstate⟩ :=
    Worklist.run_simulates hwork (Nat.succ_le_succ hricher.maximum) hstart hrun
  exact ⟨state'.usedResources, state'.traversal, bind_eq_ok.mpr ⟨state', hrun', rfl⟩,
    hstate.traversal, hstate.used⟩

/-! ## Expansions -/

structure LevelExpansion (budget richer : ProjectionTraversal)
    (used : List String → List String → Prop) (state state' : ExpansionState) : Prop where
  traversal : Level budget richer state.traversal state'.traversal
  used : used state.usedResources state'.usedResources
  seen : state.seen = state'.seen
  expanded : state.expanded = state'.expanded
  recursiveFindings : state.recursiveFindings = state'.recursiveFindings

theorem expandReference_level (hkept : KeptByUse used) {located : ApplicableSchema}
    {state state' after : ExpansionState} {pushed : List ApplicableSchema}
    (hlevel : LevelExpansion budget richer used state state')
    (h : expandReference graph activeLocations located state = .ok (after, pushed)) :
    ∃ after', expandReference graph activeLocations located state' = .ok (after', pushed) ∧
      LevelExpansion budget richer used after after' := by
  unfold expandReference at h ⊢
  cases hkeyword : textKeyword located.schema "$ref" with
  | none =>
    rw [hkeyword] at h
    cases h
    exact ⟨state', rfl, hlevel⟩
  | some reference =>
    rw [hkeyword] at h
    obtain ⟨target, htarget, h⟩ := bind_eq_ok.mp h
    dsimp only at h ⊢
    rw [htarget]
    by_cases hknown : (activeLocations.contains (schemaIdentity target) ||
        located.referencePath.contains (schemaIdentity target)) = true
    · rw [if_pos hknown] at h
      cases h
      refine ⟨_, if_pos hknown, ⟨hlevel.traversal, hkept _ _ _ hlevel.used, hlevel.seen,
        hlevel.expanded, ?_⟩⟩
      show insertFinding _ state.recursiveFindings = insertFinding _ state'.recursiveFindings
      rw [hlevel.recursiveFindings]
    · rw [if_neg hknown] at h
      cases h
      exact ⟨_, if_neg hknown, ⟨hlevel.traversal, hkept _ _ _ hlevel.used, hlevel.seen,
        hlevel.expanded, hlevel.recursiveFindings⟩⟩

theorem expandDynamicReference_level (hricher : Richer budget richer) (hkept : KeptByUse used)
    {located : ApplicableSchema} {state state' after : ExpansionState}
    (hlevel : LevelExpansion budget richer used state state')
    (h : expandDynamicReference graph located state = .ok after) :
    ∃ after', expandDynamicReference graph located state' = .ok after' ∧
      LevelExpansion budget richer used after after' := by
  unfold expandDynamicReference at h ⊢
  cases hkeyword : textKeyword located.schema "$dynamicRef" with
  | none =>
    rw [hkeyword] at h
    cases h
    exact ⟨state', rfl, hlevel⟩
  | some reference =>
    rw [hkeyword] at h
    obtain ⟨target, htarget, h⟩ := bind_eq_ok.mp h
    obtain ⟨⟨usedAfter, traversal⟩, hincluded, h⟩ := bind_eq_ok.mp h
    cases h
    obtain ⟨usedAfter', traversal', hincluded', htraversal, hused⟩ :=
      includeValidationResources_level hricher hkept hlevel.traversal hlevel.used hincluded
    refine ⟨_, bind_eq_ok.mpr ⟨target, htarget, bind_eq_ok.mpr ⟨_, hincluded', rfl⟩⟩,
      ⟨htraversal, hused, hlevel.seen, hlevel.expanded, hlevel.recursiveFindings⟩⟩

theorem foldl_insertValue_kept (hkept : KeptByUse used) {schemas : List ApplicableSchema}
    {left right : List String} (h : used left right) :
    used (schemas.foldl (fun used schema => insertValue used schema.resource) left)
      (schemas.foldl (fun used schema => insertValue used schema.resource) right) := by
  induction schemas generalizing left right with
  | nil => exact h
  | cons schema schemas ih => exact ih (hkept _ _ _ h)

theorem expandAllOf_level (hkept : KeptByUse used) {located : ApplicableSchema}
    {state state' after : ExpansionState} {pushed : List ApplicableSchema}
    (hlevel : LevelExpansion budget richer used state state')
    (h : expandAllOf graph located state = .ok (after, pushed)) :
    ∃ after', expandAllOf graph located state' = .ok (after', pushed) ∧
      LevelExpansion budget richer used after after' := by
  unfold expandAllOf at h ⊢
  cases hallOf : located.allOf with
  | none =>
    rw [hallOf] at h
    cases h
    exact ⟨state', rfl, hlevel⟩
  | some branches =>
    rw [hallOf] at h
    obtain ⟨schemas, hschemas, h⟩ := bind_eq_ok.mp h
    cases h
    exact ⟨_, bind_eq_ok.mpr ⟨_, hschemas, rfl⟩, ⟨hlevel.traversal,
      foldl_insertValue_kept hkept hlevel.used, hlevel.seen, hlevel.expanded,
      hlevel.recursiveFindings⟩⟩

theorem expandSchema_level (hricher : Richer budget richer) (hkept : KeptByUse used)
    {located : ApplicableSchema} {state state' after : ExpansionState}
    {pushed : List ApplicableSchema}
    (hlevel : LevelExpansion budget richer used state state')
    (h : expandSchema graph activeLocations located state = .ok (after, pushed)) :
    ∃ after', expandSchema graph activeLocations located state' = .ok (after', pushed) ∧
      LevelExpansion budget richer used after after' := by
  obtain ⟨traversal, hvisit, h⟩ := bind_eq_ok.mp h
  obtain ⟨traversal', hvisit', htraversal⟩ := visit_level hricher hlevel.traversal hvisit
  dsimp only at h
  unfold expandSchema
  rw [hvisit']
  by_cases hseen : state.seen.any located.joined.expansionKey.same = true
  · rw [if_pos hseen] at h
    cases h
    rw [hlevel.seen] at hseen
    exact ⟨_, if_pos hseen, ⟨htraversal, hlevel.used, hlevel.seen, hlevel.expanded,
      hlevel.recursiveFindings⟩⟩
  · rw [if_neg hseen] at h
    rw [hlevel.seen] at hseen
    obtain ⟨⟨state₁, target⟩, hreference, h⟩ := bind_eq_ok.mp h
    obtain ⟨state₂, hdynamic, h⟩ := bind_eq_ok.mp h
    obtain ⟨⟨state₃, branches⟩, hallOf, h⟩ := bind_eq_ok.mp h
    cases h
    have hbegin : LevelExpansion budget richer used
        { state with traversal, seen := located.joined.expansionKey :: state.seen }
        { state' with
          traversal := traversal'
          seen := located.joined.expansionKey :: state'.seen } :=
      ⟨htraversal, hlevel.used, congrArg (_ :: ·) hlevel.seen, hlevel.expanded,
        hlevel.recursiveFindings⟩
    obtain ⟨state₁', hreference', h₁⟩ := expandReference_level hkept hbegin hreference
    obtain ⟨state₂', hdynamic', h₂⟩ := expandDynamicReference_level hricher hkept h₁ hdynamic
    obtain ⟨state₃', hallOf', h₃⟩ := expandAllOf_level hkept h₂ hallOf
    refine ⟨{ state₃' with expanded := state₃'.expanded ++ [located.joined] },
      (if_neg hseen).trans ?_, ⟨h₃.traversal, h₃.used, h₃.seen,
        congrArg (· ++ [located.joined]) h₃.expanded, h₃.recursiveFindings⟩⟩
    exact bind_eq_ok.mpr ⟨_, hreference', bind_eq_ok.mpr ⟨_, hdynamic',
      bind_eq_ok.mpr ⟨_, hallOf', rfl⟩⟩⟩

/-- The same schemas and findings are found. -/
theorem expandReferences_level (hricher : Richer budget richer) (hkept : KeptByUse used)
    {schemas : List ApplicableSchema} {usedResources usedResources' : List String}
    {traversal traversal' : ProjectionTraversal} {expansion : SchemaExpansion}
    (hlevel : Level budget richer traversal traversal') (hused : used usedResources usedResources')
    (h : expandReferences graph schemas activeLocations usedResources traversal = .ok expansion) :
    ∃ usedAfter after, expandReferences graph schemas activeLocations usedResources' traversal' =
        .ok ⟨expansion.schemas, expansion.recursiveFindings, usedAfter, after⟩ ∧
      Level budget richer expansion.traversal after ∧ used expansion.usedResources usedAfter := by
  obtain ⟨state, hrun, rfl⟩ := expandReferences_run h
  obtain ⟨visits, rfl, rfl⟩ := hlevel
  have hstart : LevelExpansion budget richer used
      ⟨⟨budget.maximum, budget.observed + visits⟩, usedResources, [], [], []⟩
      ⟨⟨richer.maximum, richer.observed + visits⟩, usedResources', [], [], []⟩ :=
    ⟨⟨visits, rfl, rfl⟩, hused, rfl, rfl, rfl⟩
  have hwork (node : ApplicableSchema) (state state' after : ExpansionState)
      (pushed : List ApplicableSchema) (hlevel : LevelExpansion budget richer used state state')
      (h : expandSchema graph activeLocations node state = .ok (after, pushed)) :=
    expandSchema_level hricher hkept hlevel h
  obtain ⟨state', hrun', hstate⟩ :=
    Worklist.run_simulates hwork (Nat.succ_le_succ hricher.maximum) hstart hrun
  refine ⟨state'.usedResources, state'.traversal, bind_eq_ok.mpr ⟨state', hrun', ?_⟩,
    hstate.traversal, hstate.used⟩
  rw [← hstate.expanded, ← hstate.recursiveFindings]
  rfl

end Schemaform.Engine
