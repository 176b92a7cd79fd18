import Schemaform.Compile.Expand
import Schemaform.Lib.ListEdit

/-!
# Compile.ExpandSpec

What an expansion finds.

* `ReferenceApplies`, `BranchApplies`, `Expands`: one schema applies through another.
* `Recurs`: a `$ref` that leads back to where an expansion has been.
* `expandReference_ok`, `expandDynamicReference_ok`, `expandAllOf_ok`, `expandSchema_ok`: one step.
* `expandReferences_ok`: the schemas found are those that apply, each key once, and the findings are
  those of the references that lead back.
* `expansion_exact`: all of it, with what is spent and used.
-/

namespace Schemaform.Engine

open Resources (ResourceGraph GraphLocation)

/-! ## Keys -/

namespace ExpansionKey

theorem same_iff {left right : ExpansionKey} : left.same right = true ↔
    left.resource = right.resource ∧ left.pointer = right.pointer ∧
      left.memberships.Perm right.memberships := by
  simp [same, List.isPerm_iff, and_assoc]

theorem same_refl (key : ExpansionKey) : key.same key = true :=
  same_iff.mpr ⟨rfl, rfl, .refl _⟩

end ExpansionKey

/-! ## Applying schemas -/

variable (graph : ResourceGraph) (activeLocations : List SchemaIdentity)

def RefersTo (located : ApplicableSchema) (target : GraphLocation) : Prop :=
  ∃ reference, textKeyword located.schema "$ref" = some reference ∧
    graph.resolveReference located.resource reference = .ok target

/-- Its target is being expanded already. -/
def Recurs (located : ApplicableSchema) : Prop :=
  ∃ target, RefersTo graph located target ∧
    (schemaIdentity target ∈ activeLocations ∨ schemaIdentity target ∈ located.referencePath)

def ReferenceApplies (located applied : ApplicableSchema) : Prop :=
  ∃ target, RefersTo graph located target ∧ ¬ Recurs graph activeLocations located ∧
    applied = ⟨target, located.allOfMemberships, located.referencePath ++ [schemaIdentity target]⟩

def BranchApplies (located applied : ApplicableSchema) : Prop :=
  ∃ branches index branch, located.allOf = some branches ∧ branches[index]? = some branch ∧
    allOfBranch graph located branches index branch = .ok applied

def Expands (located applied : ApplicableSchema) : Prop :=
  ReferenceApplies graph activeLocations located applied ∨ BranchApplies graph located applied

/-- Some schema has the key of this one. -/
def Covered (expanded : List ApplicableSchema) (located : ApplicableSchema) : Prop :=
  ∃ other ∈ expanded, other.expansionKey.same located.joined.expansionKey = true

/-- What is told of a `$ref` that leads back. -/
def recursionFinding (located : ApplicableSchema) : UnsupportedFinding :=
  located.plain.finding "structure.recursive.projection" ["$ref"] emptyParameters

/-! ## Findings and resources -/

variable {graph activeLocations}

theorem mem_insertValue {α : Type} [DecidableEq α] {values : List α} {value other : α} :
    other ∈ insertValue values value ↔ other ∈ values ∨ other = value := by
  unfold insertValue
  split
  · rename_i hmem
    constructor
    · exact .inl
    · rintro (h | rfl)
      · exact h
      · exact hmem
  · simp

theorem mem_foldl_insertValue {α β : Type} [DecidableEq β] (f : α → β) {items : List α}
    {values : List β} {other : β} :
    other ∈ items.foldl (fun values item => insertValue values (f item)) values ↔
      other ∈ values ∨ ∃ item ∈ items, other = f item := by
  induction items generalizing values with
  | nil => simp
  | cons item items ih =>
    rw [List.foldl_cons, ih, mem_insertValue]
    simp [or_assoc]

theorem UnsupportedFinding.samePlace_iff {left right : UnsupportedFinding} :
    left.samePlace right = true ↔ left.resource = right.resource ∧
      left.keywordLocation = right.keywordLocation ∧ left.code = right.code := by
  simp [samePlace, and_assoc]

theorem mem_insertFinding {finding other : UnsupportedFinding} {findings : List UnsupportedFinding}
    (h : other ∈ insertFinding finding findings) : other = finding ∨ other ∈ findings := by
  induction findings with
  | nil => exact .inl (List.mem_singleton.mp h)
  | cons first rest ih =>
    unfold insertFinding at h
    split at h
    · exact (List.mem_cons.mp h).imp_right (List.mem_cons_of_mem _)
    · split at h
      · exact List.mem_cons.mp h
      · rcases List.mem_cons.mp h with h | h
        · exact .inr (h ▸ List.mem_cons_self)
        · exact (ih h).imp_right (List.mem_cons_of_mem _)

theorem mem_insertFinding_self (finding : UnsupportedFinding) (findings : List UnsupportedFinding) :
    finding ∈ insertFinding finding findings := by
  induction findings with
  | nil => exact List.mem_singleton_self _
  | cons first rest ih =>
    unfold insertFinding
    split
    · exact List.mem_cons_self
    · split
      · exact List.mem_cons_self
      · exact List.mem_cons_of_mem _ ih

/-- Only a finding at the same place gives way. -/
theorem mem_insertFinding_of_mem {finding other : UnsupportedFinding}
    {findings : List UnsupportedFinding} (h : other ∈ findings)
    (hsame : finding.samePlace other = true → finding = other) :
    other ∈ insertFinding finding findings := by
  induction findings with
  | nil => cases h
  | cons first rest ih =>
    unfold insertFinding
    split
    · rename_i hfirst
      rcases List.mem_cons.mp h with rfl | h
      · rw [hsame hfirst]
        exact List.mem_cons_self
      · exact List.mem_cons_of_mem _ h
    · split
      · exact List.mem_cons_of_mem _ h
      · rcases List.mem_cons.mp h with rfl | h
        · exact List.mem_cons_self
        · exact List.mem_cons_of_mem _ (ih h)

/-- Findings of recursion differ in their places only. -/
theorem recursionFinding_inj {left right : ApplicableSchema}
    (h : (recursionFinding left).samePlace (recursionFinding right) = true) :
    recursionFinding left = recursionFinding right := by
  obtain ⟨hresource, hlocation, -⟩ := UnsupportedFinding.samePlace_iff.mp h
  simp only [recursionFinding, LocatedSchema.finding] at hresource hlocation ⊢
  rw [hresource, hlocation]

/-! ## Visits -/

theorem visit_ok {traversal after : ProjectionTraversal} : traversal.visit = .ok after ↔
    traversal.observed < traversal.maximum ∧
      after = ⟨traversal.maximum, traversal.observed + 1⟩ := by
  unfold ProjectionTraversal.visit
  split
  · rename_i hover
    exact iff_of_false (by simp) fun h => absurd h.1 (by omega)
  · rename_i hunder
    rw [Except.ok.injEq, eq_comm, iff_and_self]
    intro _
    omega

theorem visitTimes_ok {visits : Nat} {traversal after : ProjectionTraversal} :
    traversal.visitTimes visits = .ok after ↔
      (visits = 0 ∨ traversal.observed + visits ≤ traversal.maximum) ∧
        after = ⟨traversal.maximum, traversal.observed + visits⟩ := by
  induction visits generalizing traversal with
  | zero => simp [ProjectionTraversal.visitTimes, eq_comm]
  | succ visits ih =>
    rw [ProjectionTraversal.visitTimes, bind_eq_ok]
    constructor
    · intro h
      obtain ⟨between, hvisit, h⟩ := h
      obtain ⟨hless, rfl⟩ := visit_ok.mp hvisit
      obtain ⟨hrest, rfl⟩ := ih.mp h
      have hrest : visits = 0 ∨ traversal.observed + 1 + visits ≤ traversal.maximum := hrest
      have hsum : traversal.observed + 1 + visits = traversal.observed + (visits + 1) := by omega
      exact ⟨by omega, congrArg (ProjectionTraversal.mk _) hsum⟩
    · intro h
      obtain ⟨hless, rfl⟩ := h
      refine ⟨⟨traversal.maximum, traversal.observed + 1⟩, visit_ok.mpr ⟨by omega, rfl⟩,
        ih.mpr ⟨?_, ?_⟩⟩
      · show visits = 0 ∨ traversal.observed + 1 + visits ≤ traversal.maximum
        omega
      · have hsum : traversal.observed + (visits + 1) = traversal.observed + 1 + visits := by omega
        exact congrArg (ProjectionTraversal.mk _) hsum

/-- A traversal that went on under its bound. -/
def ProjectionTraversal.Continues (traversal after : ProjectionTraversal) : Prop :=
  ∃ visits, traversal.visitTimes visits = .ok after

namespace ProjectionTraversal.Continues

variable {first between last : ProjectionTraversal}

theorem refl (traversal : ProjectionTraversal) : traversal.Continues traversal := ⟨0, rfl⟩

theorem trans (h : first.Continues between) (h' : between.Continues last) :
    first.Continues last := by
  obtain ⟨visits, h⟩ := h
  obtain ⟨visits', h'⟩ := h'
  obtain ⟨hless, rfl⟩ := visitTimes_ok.mp h
  obtain ⟨hless', rfl⟩ := visitTimes_ok.mp h'
  have hless' : visits' = 0 ∨ first.observed + visits + visits' ≤ first.maximum := hless'
  have hsum : first.observed + visits + visits' = first.observed + (visits + visits') := by omega
  exact ⟨visits + visits', visitTimes_ok.mpr ⟨by omega, congrArg (ProjectionTraversal.mk _) hsum⟩⟩

theorem visit (h : first.visit = .ok last) : first.Continues last :=
  ⟨1, bind_eq_ok.mpr ⟨last, h, rfl⟩⟩

end ProjectionTraversal.Continues

/-! ## Steps -/

theorem refersTo_unique {located : ApplicableSchema} {target other : GraphLocation}
    (h : RefersTo graph located target) (h' : RefersTo graph located other) : target = other := by
  obtain ⟨reference, hkeyword, hresolve⟩ := h
  obtain ⟨reference', hkeyword', hresolve'⟩ := h'
  obtain rfl := Option.some.inj (hkeyword.symm.trans hkeyword')
  exact Except.ok.inj (hresolve.symm.trans hresolve')

theorem expandReference_ok {located : ApplicableSchema} {state state' : ExpansionState}
    {pushed : List ApplicableSchema}
    (h : expandReference graph activeLocations located state = .ok (state', pushed)) :
    ∃ usedResources recursiveFindings,
      state' = { state with usedResources, recursiveFindings } ∧
      (∀ applied, applied ∈ pushed ↔ ReferenceApplies graph activeLocations located applied) ∧
      (∀ resource, resource ∈ usedResources ↔ resource ∈ state.usedResources ∨
        ∃ target, RefersTo graph located target ∧ resource = target.resource) ∧
      (Recurs graph activeLocations located ∧
        recursiveFindings = insertFinding (recursionFinding located) state.recursiveFindings ∨
        ¬ Recurs graph activeLocations located ∧ recursiveFindings = state.recursiveFindings) := by
  unfold expandReference at h
  cases hkeyword : textKeyword located.schema "$ref" with
  | none =>
    rw [hkeyword] at h
    obtain ⟨rfl, rfl⟩ := Prod.mk.inj (Except.ok.inj h)
    have hnone : ∀ target, ¬ RefersTo graph located target := by
      rintro target ⟨reference, href, -⟩
      rw [hkeyword] at href
      cases href
    refine ⟨state.usedResources, state.recursiveFindings, rfl, ?_, ?_, .inr ⟨?_, rfl⟩⟩
    · simp [ReferenceApplies, hnone]
    · simp [hnone]
    · simp [Recurs, hnone]
  | some reference =>
    rw [hkeyword] at h
    obtain ⟨target, htarget, h⟩ := bind_eq_ok.mp h
    have hrefers : RefersTo graph located target :=
      ⟨reference, hkeyword, mapError_eq_ok.mp htarget⟩
    have hused : ∀ resource, resource ∈ insertValue state.usedResources target.resource ↔
        resource ∈ state.usedResources ∨
          ∃ target, RefersTo graph located target ∧ resource = target.resource := by
      intro resource
      rw [mem_insertValue]
      refine or_congr_right ⟨fun h => ⟨target, hrefers, h⟩, ?_⟩
      rintro ⟨other, hother, rfl⟩
      rw [refersTo_unique hother hrefers]
    dsimp only at h
    split at h
    · rename_i hknown
      rw [Bool.or_eq_true, List.contains_iff_mem, List.contains_iff_mem] at hknown
      obtain ⟨rfl, rfl⟩ := Prod.mk.inj (Except.ok.inj h)
      have hrecurs : Recurs graph activeLocations located := ⟨target, hrefers, hknown⟩
      refine ⟨_, _, rfl, ?_, hused, .inl ⟨hrecurs, rfl⟩⟩
      simp [ReferenceApplies, hrecurs]
    · rename_i hknown
      rw [Bool.or_eq_true, List.contains_iff_mem, List.contains_iff_mem] at hknown
      obtain ⟨rfl, rfl⟩ := Prod.mk.inj (Except.ok.inj h)
      have hrecurs : ¬ Recurs graph activeLocations located := by
        rintro ⟨other, hother, hback⟩
        obtain rfl := refersTo_unique hother hrefers
        exact hknown hback
      refine ⟨_, _, rfl, fun applied => ?_, hused, .inr ⟨hrecurs, rfl⟩⟩
      rw [List.mem_singleton]
      constructor
      · rintro rfl
        exact ⟨target, hrefers, hrecurs, rfl⟩
      · rintro ⟨other, hother, -, rfl⟩
        rw [refersTo_unique hother hrefers]

theorem includeLocation_continues {location : GraphLocation} {state state' : ValidationState}
    {pushed : List GraphLocation}
    (h : includeLocation graph location state = .ok (state', pushed)) :
    state.traversal.Continues state'.traversal ∧
      ∀ resource ∈ state.usedResources, resource ∈ state'.usedResources := by
  obtain ⟨traversal, hvisit, h⟩ := bind_eq_ok.mp h
  have hcontinues := ProjectionTraversal.Continues.visit hvisit
  dsimp only at h
  split at h
  · cases h
    exact ⟨hcontinues, fun _ hr => hr⟩
  · obtain ⟨targets, -, h⟩ := bind_eq_ok.mp h
    obtain ⟨children, -, h⟩ := bind_eq_ok.mp h
    cases h
    exact ⟨hcontinues, fun resource hr => mem_insertValue.mpr (.inl hr)⟩

theorem includeValidationResources_continues {initial : GraphLocation}
    {usedResources usedResources' : List String} {traversal traversal' : ProjectionTraversal}
    (h : includeValidationResources graph initial usedResources traversal =
      .ok (usedResources', traversal')) :
    traversal.Continues traversal' ∧ ∀ resource ∈ usedResources, resource ∈ usedResources' := by
  obtain ⟨state, hrun, h⟩ := bind_eq_ok.mp h
  cases h
  have hkeeps := Worklist.run_keeps (fun _ state => traversal.Continues state.traversal ∧
      ∀ resource ∈ usedResources, resource ∈ state.usedResources)
    (fun node pending state state' pushed hinv hwork => ?_) ⟨.refl _, fun _ hr => hr⟩ hrun
  · exact hkeeps
  · obtain ⟨hcontinues, hused⟩ := includeLocation_continues hwork
    exact ⟨hinv.1.trans hcontinues, fun resource hr => hused resource (hinv.2 resource hr)⟩

theorem expandDynamicReference_ok {located : ApplicableSchema} {state state' : ExpansionState}
    (h : expandDynamicReference graph located state = .ok state') :
    ∃ usedResources traversal, state' = { state with usedResources, traversal } ∧
      state.traversal.Continues traversal ∧
      ∀ resource ∈ state.usedResources, resource ∈ usedResources := by
  unfold expandDynamicReference at h
  split at h
  · cases h
    exact ⟨state.usedResources, state.traversal, rfl, .refl _, fun _ hr => hr⟩
  · obtain ⟨target, -, h⟩ := bind_eq_ok.mp h
    obtain ⟨⟨usedResources, traversal⟩, hincluded, h⟩ := bind_eq_ok.mp h
    cases h
    obtain ⟨hcontinues, hused⟩ := includeValidationResources_continues hincluded
    exact ⟨usedResources, traversal, rfl, hcontinues, hused⟩

theorem expandAllOf_ok {located : ApplicableSchema} {state state' : ExpansionState}
    {pushed : List ApplicableSchema}
    (h : expandAllOf graph located state = .ok (state', pushed)) :
    ∃ usedResources, state' = { state with usedResources } ∧
      (∀ applied, applied ∈ pushed ↔ BranchApplies graph located applied) ∧
      ∀ resource, resource ∈ usedResources ↔ resource ∈ state.usedResources ∨
        ∃ applied ∈ pushed, resource = applied.resource := by
  unfold expandAllOf at h
  cases hallOf : located.allOf with
  | none =>
    rw [hallOf] at h
    cases h
    exact ⟨state.usedResources, rfl, by simp [BranchApplies, hallOf], by simp⟩
  | some branches =>
    rw [hallOf] at h
    obtain ⟨schemas, hschemas, h⟩ := bind_eq_ok.mp h
    cases h
    have hforall := mapM_eq_ok.mp hschemas
    refine ⟨_, rfl, fun applied => ?_, fun resource => mem_foldl_insertValue _⟩
    constructor
    · intro happlied
      obtain ⟨⟨branch, index⟩, hbranch, heq⟩ := ListEdit.mem_of_forall₂_right hforall happlied
      exact ⟨branches, index, branch, hallOf, List.mem_zipIdx_iff_getElem?.mp hbranch, heq⟩
    · rintro ⟨other, index, branch, hother, hbranch, heq⟩
      obtain rfl := Option.some.inj (hallOf.symm.trans hother)
      have hmem : (branch, index) ∈ branches.zipIdx := List.mem_zipIdx_iff_getElem?.mpr hbranch
      obtain ⟨applied', happlied, heq'⟩ := ListEdit.mem_of_forall₂_right hforall.flip hmem
      obtain rfl := Except.ok.inj (heq.symm.trans heq')
      exact happlied

theorem joined_location (located : ApplicableSchema) :
    located.joined.location = located.location := by
  unfold ApplicableSchema.joined
  split <;> rfl

/-- A schema whose key is known is dropped, another one found. -/
theorem expandSchema_ok {located : ApplicableSchema} {state state' : ExpansionState}
    {pushed : List ApplicableSchema}
    (h : expandSchema graph activeLocations located state = .ok (state', pushed)) :
    state.traversal.Continues state'.traversal ∧
      (∀ resource ∈ state.usedResources, resource ∈ state'.usedResources) ∧
      ((∃ key ∈ state.seen, located.joined.expansionKey.same key = true) ∧ pushed = [] ∧
          state' = { state with traversal := state'.traversal } ∨
        (∀ key ∈ state.seen, located.joined.expansionKey.same key = false) ∧
          state'.seen = located.joined.expansionKey :: state.seen ∧
          state'.expanded = state.expanded ++ [located.joined] ∧
          (∀ applied, applied ∈ pushed ↔ Expands graph activeLocations located.joined applied) ∧
          (∀ applied ∈ pushed, applied.resource ∈ state'.usedResources) ∧
          (Recurs graph activeLocations located.joined ∧ state'.recursiveFindings =
              insertFinding (recursionFinding located.joined) state.recursiveFindings ∨
            ¬ Recurs graph activeLocations located.joined ∧
              state'.recursiveFindings = state.recursiveFindings)) := by
  obtain ⟨traversal, hvisit, h⟩ := bind_eq_ok.mp h
  have hcontinues := ProjectionTraversal.Continues.visit hvisit
  dsimp only at h
  split at h
  · rename_i hseen
    cases h
    obtain ⟨key, hkey, hsame⟩ := List.any_eq_true.mp hseen
    exact ⟨hcontinues, fun _ hr => hr, .inl ⟨⟨key, hkey, hsame⟩, rfl, rfl⟩⟩
  · rename_i hseen
    obtain ⟨⟨state₁, target⟩, hreference, h⟩ := bind_eq_ok.mp h
    obtain ⟨state₂, hdynamic, h⟩ := bind_eq_ok.mp h
    obtain ⟨⟨state₃, branches⟩, hallOf, h⟩ := bind_eq_ok.mp h
    cases h
    obtain ⟨used₁, findings, rfl, htarget, hused₁, hfindings⟩ := expandReference_ok hreference
    obtain ⟨used₂, traversal₂, rfl, hcontinues₂, hused₂⟩ := expandDynamicReference_ok hdynamic
    obtain ⟨used₃, rfl, hbranches, hused₃⟩ := expandAllOf_ok hallOf
    have hkept : ∀ resource ∈ used₁, resource ∈ used₃ := fun resource hr =>
      (hused₃ resource).mpr (.inl (hused₂ resource hr))
    refine ⟨hcontinues.trans hcontinues₂, fun resource hr =>
      hkept resource ((hused₁ resource).mpr (.inl hr)), .inr ⟨?_, rfl, rfl, ?_, ?_, hfindings⟩⟩
    · intro key hkey
      exact Bool.eq_false_iff.mpr fun hsame => hseen (List.any_eq_true.mpr ⟨key, hkey, hsame⟩)
    · intro applied
      rw [List.mem_reverse, List.mem_append, htarget, hbranches]
      exact Iff.rfl
    · intro applied happlied
      rcases List.mem_append.mp (List.mem_reverse.mp happlied) with happlied | happlied
      · obtain ⟨target, hrefers, -, rfl⟩ := (htarget applied).mp happlied
        exact hkept _ ((hused₁ _).mpr (.inr ⟨target, hrefers, rfl⟩))
      · exact (hused₃ _).mpr (.inr ⟨applied, happlied, rfl⟩)

/-! ## Expansions -/

/-- From one schema to one that applies through it, each joined to its own `allOf`. -/
def AppliesThrough (graph : ResourceGraph) (activeLocations : List SchemaIdentity)
    (located applied : ApplicableSchema) : Prop :=
  Expands graph activeLocations located.joined applied

/-- What every step of an expansion keeps. -/
structure Expanding (graph : ResourceGraph) (activeLocations : List SchemaIdentity)
    (state : ExpansionState) : Prop where
  seen : ∀ key, key ∈ state.seen ↔ ∃ located ∈ state.expanded, key = located.expansionKey
  distinct : state.expanded.Pairwise fun located other =>
    other.expansionKey.same located.expansionKey = false
  told : ∀ finding ∈ state.recursiveFindings, ∃ located ∈ state.expanded,
    Recurs graph activeLocations located ∧ finding = recursionFinding located
  recursions : ∀ located ∈ state.expanded, Recurs graph activeLocations located →
    recursionFinding located ∈ state.recursiveFindings

theorem expandSchema_expanding {located : ApplicableSchema} {state state' : ExpansionState}
    {pushed : List ApplicableSchema} (hstate : Expanding graph activeLocations state)
    (h : expandSchema graph activeLocations located state = .ok (state', pushed)) :
    Expanding graph activeLocations state' := by
  obtain ⟨-, -, ⟨-, -, hsame⟩ | ⟨hnew, hseen, hexpanded, -, -, hfindings⟩⟩ := expandSchema_ok h
  · rw [hsame]
    exact ⟨hstate.seen, hstate.distinct, hstate.told, hstate.recursions⟩
  · refine ⟨?_, ?_, ?_, ?_⟩
    · intro key
      rw [hseen, hexpanded, List.mem_cons, hstate.seen]
      simp [or_and_right, exists_or, or_comm]
    · rw [hexpanded, List.pairwise_append]
      refine ⟨hstate.distinct, List.pairwise_singleton _ _, fun other hother last hlast => ?_⟩
      obtain rfl := List.mem_singleton.mp hlast
      exact hnew _ ((hstate.seen _).mpr ⟨other, hother, rfl⟩)
    · intro finding hfinding
      rw [hexpanded]
      rcases hfindings with ⟨hrecurs, heq⟩ | ⟨-, heq⟩
      · rw [heq] at hfinding
        rcases mem_insertFinding hfinding with rfl | hfinding
        · exact ⟨_, List.mem_append_right _ (List.mem_singleton_self _), hrecurs, rfl⟩
        · obtain ⟨other, hother, htold⟩ := hstate.told finding hfinding
          exact ⟨other, List.mem_append_left _ hother, htold⟩
      · rw [heq] at hfinding
        obtain ⟨other, hother, htold⟩ := hstate.told finding hfinding
        exact ⟨other, List.mem_append_left _ hother, htold⟩
    · intro other hother hrecurs
      rw [hexpanded] at hother
      rcases hfindings with ⟨-, heq⟩ | ⟨hnot, heq⟩
      · rw [heq]
        rcases List.mem_append.mp hother with hother | hother
        · exact mem_insertFinding_of_mem (hstate.recursions other hother hrecurs)
            recursionFinding_inj
        · obtain rfl := List.mem_singleton.mp hother
          exact mem_insertFinding_self _ _
      · rw [heq]
        rcases List.mem_append.mp hother with hother | hother
        · exact hstate.recursions other hother hrecurs
        · obtain rfl := List.mem_singleton.mp hother
          exact absurd hrecurs hnot

/-- The marks are the schemas found, each covered by one with its key. -/
theorem expandSchema_marked {located : ApplicableSchema} {state state' : ExpansionState}
    {pushed : List ApplicableSchema} (hstate : Expanding graph activeLocations state)
    (h : expandSchema graph activeLocations located state = .ok (state', pushed)) :
    Worklist.Marked ApplicableSchema.joined (Expands graph activeLocations)
      (fun state found => found ∈ state.expanded) (fun state => Covered state.expanded) located
      state state' pushed := by
  obtain ⟨-, -, ⟨⟨key, hkey, hsame⟩, rfl, heq⟩ | ⟨-, -, hexpanded, hpushed, -, -⟩⟩ :=
    expandSchema_ok h
  · rw [heq]
    obtain ⟨other, hother, rfl⟩ := (hstate.seen key).mp hkey
    refine ⟨⟨other, hother, ?_⟩, fun _ ha => ha, fun _ hb => .inl hb, by simp⟩
    obtain ⟨hresource, hpointer, hperm⟩ := ExpansionKey.same_iff.mp hsame
    exact ExpansionKey.same_iff.mpr ⟨hresource.symm, hpointer.symm, hperm.symm⟩
  · refine ⟨⟨located.joined, ?_, ExpansionKey.same_refl _⟩, ?_, ?_, fun a ha => (hpushed a).mp ha⟩
    · rw [hexpanded]
      exact List.mem_append_right _ (List.mem_singleton_self _)
    · rintro a ⟨other, hother, hsame⟩
      rw [hexpanded]
      exact ⟨other, List.mem_append_left _ hother, hsame⟩
    · intro b hb
      rw [hexpanded] at hb
      rcases List.mem_append.mp hb with hb | hb
      · exact .inl hb
      · obtain rfl := List.mem_singleton.mp hb
        exact .inr ⟨rfl, fun a ha => (hpushed a).mpr ha⟩

section Expansion

variable {schemas : List ApplicableSchema} {usedResources : List String}
  {traversal : ProjectionTraversal} {expansion : SchemaExpansion}

/-- What a successful run leaves, before the schemas are put in order. -/
theorem expandReferences_run
    (h : expandReferences graph schemas activeLocations usedResources traversal = .ok expansion) :
    ∃ state, Worklist.run (expandSchema graph activeLocations) exhausted (traversal.maximum + 1)
        schemas.reverse ⟨traversal, usedResources, [], [], []⟩ = .ok state ∧
      expansion = ⟨state.expanded.mergeSort ApplicableSchema.before, state.recursiveFindings,
        state.usedResources, state.traversal⟩ := by
  obtain ⟨state, hrun, h⟩ := bind_eq_ok.mp h
  exact ⟨state, hrun, (Except.ok.inj h).symm⟩

theorem expandReferences_spends
    (h : expandReferences graph schemas activeLocations usedResources traversal = .ok expansion) :
    traversal.Continues expansion.traversal ∧
      (∀ resource ∈ usedResources, resource ∈ expansion.usedResources) ∧
      ∀ located ∈ expansion.schemas, (∃ first ∈ schemas, located.resource = first.resource) ∨
        located.resource ∈ expansion.usedResources := by
  obtain ⟨state, hrun, rfl⟩ := expandReferences_run h
  let known (state : ExpansionState) (located : ApplicableSchema) : Prop :=
    (∃ first ∈ schemas, located.resource = first.resource) ∨
      located.resource ∈ state.usedResources
  have hkeeps := Worklist.run_keeps (fun pending state =>
      traversal.Continues state.traversal ∧
      (∀ resource ∈ usedResources, resource ∈ state.usedResources) ∧
      (∀ located ∈ pending, known state located) ∧ ∀ located ∈ state.expanded, known state located)
    (fun node pending state state' pushed hinv hwork => ?_)
    ⟨.refl _, fun _ hr => hr, fun located hl => .inl ⟨located, List.mem_reverse.mp hl, rfl⟩,
      by simp⟩ hrun
  · obtain ⟨hcontinues, hused, -, hexpanded⟩ := hkeeps
    exact ⟨hcontinues, hused, fun located hl => hexpanded located (List.mem_mergeSort.mp hl)⟩
  · obtain ⟨hcontinues, hused, hpending, hexpanded⟩ := hinv
    obtain ⟨hstep, hstepused, hcases⟩ := expandSchema_ok hwork
    have hlasts {located : ApplicableSchema} (hl : known state located) : known state' located :=
      hl.imp_right fun hr => hstepused _ hr
    refine ⟨hcontinues.trans hstep, fun resource hr => hstepused _ (hused resource hr), ?_⟩
    rcases hcases with ⟨-, rfl, heq⟩ | ⟨-, -, heq, -, hpushed, -⟩
    · refine ⟨fun located hl => hlasts (hpending located (List.mem_cons_of_mem _ hl)), ?_⟩
      rw [heq]
      exact fun located hl => hexpanded located hl
    · refine ⟨fun located hl => ?_, fun located hl => ?_⟩
      · rcases List.mem_append.mp hl with hl | hl
        · exact .inr (hpushed located hl)
        · exact hlasts (hpending located (List.mem_cons_of_mem _ hl))
      · rw [heq] at hl
        rcases List.mem_append.mp hl with hl | hl
        · exact hlasts (hexpanded located hl)
        · obtain rfl := List.mem_singleton.mp hl
          have hnode := hlasts (hpending node List.mem_cons_self)
          have hresource : node.joined.resource = node.resource := by
            unfold ApplicableSchema.resource
            rw [joined_location]
          unfold known at hnode ⊢
          rwa [hresource]

theorem expandReferences_ok
    (h : expandReferences graph schemas activeLocations usedResources traversal = .ok expansion) :
    (∀ located ∈ schemas, Covered expansion.schemas located) ∧
      (∀ located ∈ expansion.schemas,
        (∃ first ∈ schemas, ∃ applied,
          Relation.ReflTransGen (AppliesThrough graph activeLocations) first applied ∧
            located = applied.joined) ∧
        ∀ applied, Expands graph activeLocations located applied →
          Covered expansion.schemas applied) ∧
      (expansion.schemas.Pairwise fun located other =>
        located.expansionKey.same other.expansionKey = false) ∧
      (∀ located ∈ expansion.schemas, Recurs graph activeLocations located →
        recursionFinding located ∈ expansion.recursiveFindings) ∧
      ∀ finding ∈ expansion.recursiveFindings, ∃ located ∈ expansion.schemas,
        Recurs graph activeLocations located ∧ finding = recursionFinding located := by
  obtain ⟨state, hrun, rfl⟩ := expandReferences_run h
  have hstart : Expanding graph activeLocations
      ⟨traversal, usedResources, [], [], []⟩ := ⟨by simp, .nil, by simp, by simp⟩
  obtain ⟨hexpanding, -, hinitial, hdone⟩ := Worklist.run_marks
    (fun node state after pushed hinv hwork =>
      ⟨expandSchema_expanding hinv hwork, expandSchema_marked hinv hwork⟩) hstart hrun
  have hsorted {located : ApplicableSchema} :
      located ∈ state.expanded.mergeSort ApplicableSchema.before ↔ located ∈ state.expanded :=
    List.mem_mergeSort
  have hcovered {located : ApplicableSchema} (hl : Covered state.expanded located) :
      Covered (state.expanded.mergeSort ApplicableSchema.before) located := by
    obtain ⟨other, hother, hsame⟩ := hl
    exact ⟨other, hsorted.mpr hother, hsame⟩
  refine ⟨fun located hl => hcovered (hinitial located (List.mem_reverse.mpr hl)), ?_, ?_, ?_, ?_⟩
  · intro located hl
    rcases hdone located (hsorted.mp hl) with hnone | ⟨⟨first, hfirst, applied, hreach, heq⟩, hnext⟩
    · cases hnone
    · exact ⟨⟨first, List.mem_reverse.mp hfirst, applied, hreach, heq⟩,
        fun applied happlied => hcovered (hnext applied happlied)⟩
  · have hsymm {located other : ApplicableSchema}
        (hne : located.expansionKey.same other.expansionKey = false) :
        other.expansionKey.same located.expansionKey = false := by
      rw [Bool.eq_false_iff] at hne ⊢
      intro hsame
      obtain ⟨hresource, hpointer, hperm⟩ := ExpansionKey.same_iff.mp hsame
      exact hne (ExpansionKey.same_iff.mpr ⟨hresource.symm, hpointer.symm, hperm.symm⟩)
    have hdistinct := hexpanding.distinct.imp hsymm
    exact (List.mergeSort_perm _ _).symm.pairwise hdistinct hsymm
  · exact fun located hl => hexpanding.recursions located (hsorted.mp hl)
  · intro finding hfinding
    obtain ⟨located, hl, htold⟩ := hexpanding.told finding hfinding
    exact ⟨located, hsorted.mpr hl, htold⟩

/-- What applies at a place is found, nothing else is, and nothing twice. -/
theorem expansion_exact
    (h : expandReferences graph schemas activeLocations usedResources traversal = .ok expansion) :
    (∀ located ∈ schemas, Covered expansion.schemas located) ∧
      (∀ located ∈ expansion.schemas,
        (∃ first ∈ schemas, ∃ applied,
          Relation.ReflTransGen (AppliesThrough graph activeLocations) first applied ∧
            located = applied.joined) ∧
        ∀ applied, Expands graph activeLocations located applied →
          Covered expansion.schemas applied) ∧
      (expansion.schemas.Pairwise fun located other =>
        located.expansionKey.same other.expansionKey = false) ∧
      (∀ finding, finding ∈ expansion.recursiveFindings ↔ ∃ located ∈ expansion.schemas,
        Recurs graph activeLocations located ∧ finding = recursionFinding located) ∧
      (∀ located ∈ expansion.schemas, (∃ first ∈ schemas, located.resource = first.resource) ∨
        located.resource ∈ expansion.usedResources) ∧
      traversal.Continues expansion.traversal := by
  obtain ⟨hinitial, hfound, hdistinct, hrecursions, htold⟩ := expandReferences_ok h
  obtain ⟨hcontinues, -, hresources⟩ := expandReferences_spends h
  refine ⟨hinitial, hfound, hdistinct, fun finding => ⟨htold finding, ?_⟩, hresources, hcontinues⟩
  intro hfinding
  obtain ⟨located, hl, hrecurs, rfl⟩ := hfinding
  exact hrecursions located hl hrecurs

end Expansion

namespace ExpansionSample

/-- A schema that refers to one whose `allOf` leads back. -/
def schema : Value :=
  .object [("$defs", .object [("a", .object [("allOf", .array [.object [("$ref", .string "#")],
    .object [("type", .string "object")]])])]), ("$ref", .string "#/$defs/a")]

def looping : ResourceGraph where
  uris := {
    resolveAgainst := fun base reference => some (base ++ reference)
    normalize := some }
  documents := [schema]
  aliases := [("s:r", ⟨0, "s:r", []⟩)]
  anchors := []

def root : GraphLocation := ⟨schema, 0, "s:r", [], [], []⟩

def traversal : ProjectionTraversal := ⟨10, 0⟩

end ExpansionSample

open ExpansionSample in
theorem expansion_exact_recursive :
    ∃ expansion, expandReferences looping [locatedFromGraph root] [] [] traversal =
        .ok expansion ∧
      Covered expansion.schemas (locatedFromGraph root) := by
  have hok : (expandReferences looping [locatedFromGraph root] [] []
      traversal).toOption.isSome = true := by decide +kernel
  cases h : expandReferences looping [locatedFromGraph root] [] [] traversal with
  | error e =>
    rw [h] at hok
    cases hok
  | ok expansion => exact ⟨expansion, rfl, (expansion_exact h).1 _ (List.mem_singleton_self _)⟩

end Schemaform.Engine
