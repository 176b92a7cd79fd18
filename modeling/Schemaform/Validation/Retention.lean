import Schemaform.Finding
import Schemaform.Json.EncodeSpec
import Schemaform.Lib.Smallest

/-!
# Validation.Retention

Which findings of a validation are retained.

* `ValidationErrorKind`, `evaluatorFailed`: errors with the errors nested in them.
* `EvaluatorFailure`: a failure of the evaluator, at any depth; `evaluatorFailed_iff`.
* `compareFindings_eq`: findings of one place in the order are equal.
* `largestIndex_spec`, `retainFinding_smallest`: one error more.
* `retention_canonical`: the outcome over a whole sequence of errors.
-/

namespace Schemaform

open Std

/-! ## Evaluator failures -/

/-- `jsonschema::error::ValidationErrorKind`, as far as a failure can sit in it. -/
inductive ValidationErrorKind where
  | backtrackLimitExceeded
  | regexEngineFailure
  | fromUtf8
  | referencing
  | custom (name : String)
  | anyOf (context : List (List ValidationErrorKind))
  | oneOfMultipleValid (context : List (List ValidationErrorKind))
  | oneOfNotValid (context : List (List ValidationErrorKind))
  | propertyNames (error : ValidationErrorKind)
  /-- Every other keyword, by the code of its findings. -/
  | other (code : String)

/-- The cardinality keywords the crate replaces by its own. -/
def customCardinalityKeyword : ValidationErrorKind → Option String
  | .custom "minItems" => some "minItems"
  | .custom "maxItems" => some "maxItems"
  | _ => none

mutual

def ValidationErrorKind.evaluatorFailed : ValidationErrorKind → Bool
  | .backtrackLimitExceeded | .regexEngineFailure | .fromUtf8 | .referencing => true
  | .custom name => (customCardinalityKeyword (.custom name)).isNone
  | .anyOf context | .oneOfMultipleValid context | .oneOfNotValid context => contextFailed context
  | .propertyNames error => error.evaluatorFailed
  | .other _ => false

def contextFailed : List (List ValidationErrorKind) → Bool
  | [] => false
  | branch :: context => branchFailed branch || contextFailed context

def branchFailed : List ValidationErrorKind → Bool
  | [] => false
  | error :: branch => error.evaluatorFailed || branchFailed branch

end

/-- The errors directly inside an error. -/
def ValidationErrorKind.nested : ValidationErrorKind → List ValidationErrorKind
  | .anyOf context | .oneOfMultipleValid context | .oneOfNotValid context => context.flatten
  | .propertyNames error => [error]
  | _ => []

/-- The evaluator could not decide, as opposed to a keyword that does not hold. -/
def ValidationErrorKind.isFailure : ValidationErrorKind → Prop
  | .backtrackLimitExceeded | .regexEngineFailure | .fromUtf8 | .referencing => True
  | .custom name => name ≠ "minItems" ∧ name ≠ "maxItems"
  | _ => False

/-- A failure of the evaluator, here or at any depth below. -/
inductive EvaluatorFailure : ValidationErrorKind → Prop where
  | here {kind : ValidationErrorKind} : kind.isFailure → EvaluatorFailure kind
  | nested {kind inner : ValidationErrorKind} : inner ∈ kind.nested → EvaluatorFailure inner →
      EvaluatorFailure kind

theorem contextFailed_eq (context : List (List ValidationErrorKind)) :
    contextFailed context = context.flatten.any (·.evaluatorFailed) := by
  have hbranch (branch : List ValidationErrorKind) :
      branchFailed branch = branch.any (·.evaluatorFailed) := by
    induction branch with
    | nil => rfl
    | cons error branch ih => rw [branchFailed, ih, List.any_cons]
  induction context with
  | nil => rfl
  | cons branch context ih =>
    rw [contextFailed, hbranch, ih, List.flatten_cons, List.any_append]

theorem customCardinalityKeyword_isNone (name : String) :
    (customCardinalityKeyword (.custom name)).isNone = true ↔
      name ≠ "minItems" ∧ name ≠ "maxItems" := by
  by_cases hmin : name = "minItems"
  · simp [hmin, customCardinalityKeyword]
  by_cases hmax : name = "maxItems"
  · simp [hmax, customCardinalityKeyword]
  simp [hmin, hmax, customCardinalityKeyword]

/-- One level of the search. -/
theorem evaluatorFailed_eq (kind : ValidationErrorKind) : kind.evaluatorFailed = true ↔
    kind.isFailure ∨ ∃ inner ∈ kind.nested, inner.evaluatorFailed = true := by
  cases kind with
  | custom name =>
    simpa [ValidationErrorKind.evaluatorFailed, ValidationErrorKind.isFailure,
      ValidationErrorKind.nested] using
      customCardinalityKeyword_isNone name
  | anyOf context | oneOfMultipleValid context | oneOfNotValid context =>
    rw [ValidationErrorKind.evaluatorFailed, contextFailed_eq, List.any_eq_true]
    simp [ValidationErrorKind.isFailure, ValidationErrorKind.nested]
  | propertyNames error =>
    simp [ValidationErrorKind.evaluatorFailed, ValidationErrorKind.isFailure,
      ValidationErrorKind.nested]
  | other code =>
    simp [ValidationErrorKind.evaluatorFailed, ValidationErrorKind.isFailure,
      ValidationErrorKind.nested]
  | _ => simp [ValidationErrorKind.evaluatorFailed, ValidationErrorKind.isFailure]

theorem nested_sizeOf {kind inner : ValidationErrorKind} (h : inner ∈ kind.nested) :
    sizeOf inner < sizeOf kind := by
  have hflat (context : List (List ValidationErrorKind)) (h : inner ∈ context.flatten) :
      sizeOf inner < sizeOf context := by
    obtain ⟨branch, hbranch, hinner⟩ := List.mem_flatten.mp h
    exact Nat.lt_trans (List.sizeOf_lt_of_mem hinner) (List.sizeOf_lt_of_mem hbranch)
  cases kind with
  | anyOf context | oneOfMultipleValid context | oneOfNotValid context =>
    have hlt := hflat context h
    simp only [ValidationErrorKind.anyOf.sizeOf_spec,
      ValidationErrorKind.oneOfMultipleValid.sizeOf_spec,
      ValidationErrorKind.oneOfNotValid.sizeOf_spec]
    omega
  | propertyNames error =>
    obtain rfl := List.mem_singleton.mp h
    simp only [ValidationErrorKind.propertyNames.sizeOf_spec]
    omega
  | _ => cases h

theorem evaluatorFailure_of_failed (kind : ValidationErrorKind) (h : kind.evaluatorFailed = true) :
    EvaluatorFailure kind := by
  rcases (evaluatorFailed_eq kind).mp h with hhere | ⟨inner, hinner, hfailed⟩
  · exact .here hhere
  · have hlt := nested_sizeOf hinner
    exact .nested hinner (evaluatorFailure_of_failed inner hfailed)
termination_by sizeOf kind

theorem evaluatorFailed_iff (kind : ValidationErrorKind) :
    kind.evaluatorFailed = true ↔ EvaluatorFailure kind := by
  refine ⟨evaluatorFailure_of_failed kind, fun h => ?_⟩
  induction h with
  | here h => exact (evaluatorFailed_eq _).mpr (.inl h)
  | nested hinner _ ih => exact (evaluatorFailed_eq _).mpr (.inr ⟨_, hinner, ih⟩)

/-! ## The order of findings -/

instance : TransCmp compareFindings :=
  inferInstanceAs (TransCmp (compareLex (compareLex (compareLex (compareLex
    (compareOn fun finding : ValidationFinding => finding.instanceLocation.text)
    (compareOn (·.keywordLocation.resource))) (compareOn (·.keywordLocation.pointer.text)))
    (compareOn (·.code))) (compareOn (·.parameters.text))))

theorem compareFindings_self (finding : ValidationFinding) :
    compareFindings finding finding = .eq := ReflCmp.compare_self

theorem compareFindings_eq {left right : ValidationFinding} (hl : left.parameters.WF)
    (hr : right.parameters.WF) (h : compareFindings left right = .eq) : left = right := by
  simp only [compareFindings, comparePointers, Ordering.then_eq_eq, Std.compare_eq_iff_eq] at h
  obtain ⟨⟨⟨⟨hlocation, hresource⟩, hpointer⟩, hcode⟩, hparameters⟩ := h
  obtain ⟨code, location, ⟨resource, pointer⟩, parameters⟩ := left
  obtain ⟨code', location', ⟨resource', pointer'⟩, parameters'⟩ := right
  obtain rfl : location = location' := Pointer.text_inj hlocation
  obtain rfl : pointer = pointer' := Pointer.text_inj hpointer
  obtain rfl : parameters = parameters' := Value.text_inj hl hr hparameters
  obtain rfl : resource = resource' := hresource
  obtain rfl : code = code' := hcode
  rfl

/-! ## One finding more -/

/-- The later one of the greater of two candidates. -/
def laterLargest (best : Option (ValidationFinding × Nat)) (candidate : ValidationFinding × Nat) :
    Option (ValidationFinding × Nat) :=
  best.elim (some candidate) fun best =>
    if (compareFindings best.1 candidate.1).isGT then some best else some candidate

theorem largestIndex_cons (finding : ValidationFinding) (findings : List ValidationFinding) :
    largestIndex (finding :: findings) =
      ((findings.zipIdx 1).foldl laterLargest (some (finding, 0))).elim 0 Prod.snd := by
  unfold largestIndex
  refine congrArg (fun step => (((finding :: findings).zipIdx).foldl step none).elim 0 Prod.snd) ?_
  funext best candidate
  cases best <;> rfl

theorem largest_fold (candidates : List (ValidationFinding × Nat))
    (best : ValidationFinding × Nat) :
    ∃ largest, candidates.foldl laterLargest (some best) = some largest ∧
      (largest = best ∨ largest ∈ candidates) ∧
      (compareFindings best.1 largest.1).isLE = true ∧
      ∀ candidate ∈ candidates, (compareFindings candidate.1 largest.1).isLE = true := by
  induction candidates generalizing best with
  | nil =>
    refine ⟨best, rfl, .inl rfl, ?_, fun _ h => absurd h List.not_mem_nil⟩
    rw [compareFindings_self]
    rfl
  | cons candidate candidates ih =>
    rw [List.foldl_cons, laterLargest, Option.elim_some]
    split
    · rename_i hgt
      obtain ⟨largest, hfold, hmem, hle, hall⟩ := ih best
      refine ⟨largest, hfold, hmem.imp_right (List.mem_cons_of_mem _), hle, ?_⟩
      have hlt : compareFindings candidate.1 best.1 = .lt :=
        OrientedCmp.gt_iff_lt.mp (Ordering.isGT_iff_eq_gt.mp hgt)
      have hcandidate : (compareFindings candidate.1 best.1).isLE = true := by
        rw [hlt]
        rfl
      exact List.forall_mem_cons.mpr ⟨TransCmp.isLE_trans hcandidate hle, hall⟩
    · rename_i hgt
      obtain ⟨largest, hfold, hmem, hle, hall⟩ := ih candidate
      have hbest : (compareFindings best.1 candidate.1).isLE = true := by
        cases hc : compareFindings best.1 candidate.1 with
        | gt => exact absurd (hc ▸ rfl) hgt
        | _ => rfl
      refine ⟨largest, hfold, ?_, TransCmp.isLE_trans hbest hle,
        List.forall_mem_cons.mpr ⟨hle, hall⟩⟩
      rcases hmem with rfl | hmem
      · exact .inr List.mem_cons_self
      · exact .inr (List.mem_cons_of_mem _ hmem)

theorem largestIndex_spec {findings : List ValidationFinding} (h : findings ≠ []) :
    ∃ current, findings[largestIndex findings]? = some current ∧
      ∀ finding ∈ findings, (compareFindings finding current).isLE = true := by
  obtain ⟨finding, findings, rfl⟩ := List.exists_cons_of_ne_nil h
  obtain ⟨largest, hfold, hmem, hle, hall⟩ := largest_fold (findings.zipIdx 1) (finding, 0)
  have hzip : largest ∈ (finding :: findings).zipIdx := by
    rw [List.zipIdx_cons]
    rcases hmem with rfl | hmem
    · exact List.mem_cons_self
    · exact List.mem_cons_of_mem _ hmem
  refine ⟨largest.1, ?_, List.forall_mem_cons.mpr ⟨hle, fun other hother => ?_⟩⟩
  · rw [largestIndex_cons, hfold, Option.elim_some]
    exact List.mem_zipIdx_iff_getElem?.mp hzip
  · obtain ⟨i, hi⟩ := List.mem_iff_getElem?.mp hother
    refine hall (other, 1 + i) (List.mem_iff_getElem?.mpr ⟨i, ?_⟩)
    rw [List.getElem?_zipIdx, hi]
    rfl

/-- What is retained of the findings seen, and whether that is less. -/
structure Retained (maximum : Nat) (seen findings : List ValidationFinding) (truncated : Bool) :
    Prop where
  smallest : Smallest compareFindings maximum seen findings
  truncated : truncated = true ↔ ∃ finding ∈ seen, finding ∉ findings

theorem retainFinding_retained {maximum : Nat} {seen findings : List ValidationFinding}
    {truncated : Bool} {finding : ValidationFinding} (h : Retained maximum seen findings truncated)
    (hseen : ∀ f ∈ seen, f.parameters.WF) (hfinding : finding.parameters.WF) :
    Retained maximum (seen ++ [finding]) (retainFinding maximum findings truncated finding).1
      (retainFinding maximum findings truncated finding).2 := by
  have hold {kept : List ValidationFinding} (hin : finding ∈ kept) :
      (∃ f ∈ seen ++ [finding], f ∉ kept) ↔ ∃ f ∈ seen, f ∉ kept := by
    simp [or_and_right, exists_or, hin]
  unfold retainFinding
  split
  · rename_i hmem
    exact ⟨h.smallest.known hmem, h.truncated.trans (hold hmem).symm⟩
  rename_i hnew
  split
  · rename_i hroom
    have hkept := h.smallest.seen_kept hroom
    refine ⟨h.smallest.room hnew hroom, ?_⟩
    rw [h.truncated, hold (List.mem_append_right _ List.mem_cons_self)]
    constructor
    · rintro ⟨f, hf, hnot⟩
      exact absurd (hkept f hf) hnot
    · rintro ⟨f, hf, hnot⟩
      exact absurd (List.mem_append_left _ (hkept f hf)) hnot
  rename_i hfull
  have hfull : maximum ≤ findings.length := Nat.le_of_not_lt hfull
  dsimp only
  by_cases hnil : findings = []
  · subst hnil
    refine ⟨h.smallest.refused hfull fun _ h => absurd h List.not_mem_nil, ?_⟩
    simp [largestIndex]
  obtain ⟨current, hcurrent, hlargest⟩ := largestIndex_spec hnil
  have hwf (f : ValidationFinding) (hf : f ∈ findings) : f.parameters.WF :=
    hseen f (h.smallest.subset hf)
  have hmem := List.mem_of_getElem? hcurrent
  rw [hcurrent]
  dsimp only
  split
  · rename_i hlt
    have hlt : compareFindings finding current = .lt := Ordering.isLT_iff_eq_lt.mp hlt
    have hreplaced := h.smallest.replaced
      (fun f hf => compareFindings_eq (hwf f hf) (hwf current hmem)) hnew hfull hcurrent hlargest hlt
    refine ⟨hreplaced, iff_of_true rfl ?_⟩
    refine ⟨current, List.mem_append_left _ (h.smallest.subset hmem), fun hin => ?_⟩
    obtain ⟨j, hj⟩ := List.mem_iff_getElem?.mp hin
    by_cases hij : largestIndex findings = j
    · rw [← hij, List.getElem?_set_self (List.getElem?_eq_some_iff.mp hcurrent).1] at hj
      rw [Option.some.inj hj, compareFindings_self] at hlt
      cases hlt
    · rw [List.getElem?_set_ne hij] at hj
      obtain ⟨_, hat⟩ := List.getElem?_eq_some_iff.mp hcurrent
      obtain ⟨_, hat'⟩ := List.getElem?_eq_some_iff.mp hj
      exact hij ((List.Nodup.getElem_inj_iff h.smallest.nodup).mp (hat.trans hat'.symm))
  · rename_i hlt
    refine ⟨h.smallest.refused hfull fun f hf => ?_, iff_of_true rfl ?_⟩
    · have habove : compareFindings current finding = .lt := by
        cases hc : compareFindings current finding with
        | lt => rfl
        | eq =>
          exact absurd (compareFindings_eq (hwf current hmem) hfinding hc ▸ hmem) hnew
        | gt =>
          rw [OrientedCmp.gt_iff_lt] at hc
          rw [hc] at hlt
          exact absurd rfl hlt
      exact TransCmp.lt_of_isLE_of_lt (hlargest f hf) habove
    · exact ⟨finding, List.mem_append_right _ List.mem_cons_self, hnew⟩

/-! ## All findings -/

/-- The smallest distinct findings, in order. -/
def smallestFindings (maximum : Nat) (findings : List ValidationFinding) : List ValidationFinding :=
  (findings.dedup.insertionSort fun a b => (compareFindings a b).isLE).take maximum

/-- The outcome a sequence of findings asks for. -/
def outcomeOf (maximum : Nat) (findings : List ValidationFinding) : Outcome :=
  if findings = [] then .valid
  else .invalid (smallestFindings maximum findings) (decide (maximum < findings.dedup.length))

theorem collectFindings_failed {maximum parameterBytes : Nat} {errors : List ValidationError}
    (h : ∃ error ∈ errors, error.evaluatorFailed = true) (findings : List ValidationFinding)
    (truncated invalid : Bool) :
    collectFindings maximum parameterBytes errors findings truncated invalid =
      .indeterminate ⟨"validator-evaluation-failed"⟩ := by
  induction errors generalizing findings truncated invalid with
  | nil =>
    obtain ⟨_, hmem, _⟩ := h
    cases hmem
  | cons error errors ih =>
    unfold collectFindings
    by_cases hfailed : error.evaluatorFailed = true
    · rw [if_pos hfailed]
    · rw [if_neg hfailed]
      refine ih ?_ _ _ _
      obtain ⟨other, hmem, hother⟩ := h
      rcases List.mem_cons.mp hmem with rfl | hmem
      · exact absurd hother hfailed
      · exact ⟨other, hmem, hother⟩

theorem collectFindings_eq {maximum parameterBytes : Nat} {errors : List ValidationError}
    (hok : ∀ error ∈ errors, error.evaluatorFailed = false)
    (hwf : ∀ error ∈ errors, (error.translate parameterBytes).parameters.WF)
    {seen findings : List ValidationFinding} {truncated invalid : Bool}
    (h : Retained maximum seen findings truncated) (hseen : ∀ f ∈ seen, f.parameters.WF)
    (hinvalid : invalid = true ↔ seen ≠ []) :
    collectFindings maximum parameterBytes errors findings truncated invalid =
      outcomeOf maximum (seen ++ errors.map (·.translate parameterBytes)) := by
  induction errors generalizing seen findings truncated invalid with
  | nil =>
    rw [List.map_nil, List.append_nil, collectFindings, outcomeOf]
    by_cases hnil : seen = []
    · rw [if_pos hnil, if_neg fun hi => hinvalid.mp hi hnil]
    · have htruncated : truncated = decide (maximum < seen.dedup.length) := by
        rw [Bool.eq_iff_iff, decide_eq_true_eq, h.smallest.overflow_iff]
        exact h.truncated
      rw [if_neg hnil, if_pos (hinvalid.mpr hnil), htruncated, smallestFindings,
        h.smallest.sorted_eq fun a ha b hb => compareFindings_eq (hseen a ha) (hseen b hb)]
  | cons error errors ih =>
    obtain ⟨hhead, hok⟩ := List.forall_mem_cons.mp hok
    obtain ⟨hwfHead, hwf⟩ := List.forall_mem_cons.mp hwf
    rw [collectFindings, hhead, if_neg Bool.false_ne_true]
    dsimp only
    rw [ih hok hwf (retainFinding_retained h hseen hwfHead) ?_ (by simp)]
    · rw [List.map_cons, List.append_assoc, List.singleton_append]
    · intro f hf
      rcases List.mem_append.mp hf with hf | hf
      · exact hseen f hf
      · obtain rfl := List.mem_singleton.mp hf
        exact hwfHead

/-- The order of emission is lost on the way. -/
theorem outcomeOf_perm {findings findings' : List ValidationFinding} (h : findings.Perm findings')
    (hwf : ∀ f ∈ findings, f.parameters.WF) (maximum : Nat) :
    outcomeOf maximum findings = outcomeOf maximum findings' := by
  have hdedup : findings.dedup.Perm findings'.dedup := h.dedup
  have hsorted : (findings.dedup.insertionSort fun a b => (compareFindings a b).isLE) =
      findings'.dedup.insertionSort fun a b => (compareFindings a b).isLE := by
    refine List.Perm.eq_of_pairwise (fun a b ha hb hab hba => ?_)
      (List.pairwise_insertionSort _ _) (List.pairwise_insertionSort _ _)
      (((List.perm_insertionSort _ _).trans hdedup).trans (List.perm_insertionSort _ _).symm)
    have ha := List.mem_dedup.mp ((List.perm_insertionSort _ _).mem_iff.mp ha)
    have hb := List.mem_dedup.mp ((List.perm_insertionSort _ _).mem_iff.mp hb)
    exact compareFindings_eq (hwf a ha) (hwf b (h.mem_iff.mpr hb)) (OrientedCmp.isLE_antisymm hab hba)
  have hnil : findings = [] ↔ findings' = [] :=
    ⟨fun he => List.Perm.nil_eq (he ▸ h) ▸ rfl, fun he => List.Perm.eq_nil (he ▸ h)⟩
  unfold outcomeOf smallestFindings
  rw [hsorted, hdedup.length_eq]
  by_cases he : findings = []
  · rw [if_pos he, if_pos (hnil.mp he)]
  · rw [if_neg he, if_neg fun he' => he (hnil.mpr he')]

/-- An error as the collection sees it. -/
def ValidationError.ofKind (error : ValidationErrorKind × (Nat → ValidationFinding)) :
    ValidationError := ⟨error.1.evaluatorFailed, error.2⟩

/-- A failure anywhere decides; without one the smallest distinct findings are retained, whatever
the order of the errors. -/
theorem retention_canonical (validator : Validator) (formData : Value)
    (maximum parameterBytes : Nat) (errors : List (ValidationErrorKind × (Nat → ValidationFinding)))
    (hiter : validator.iterErrors formData = errors.map .ofKind)
    (hwf : ∀ error ∈ errors, (error.2 parameterBytes).parameters.WF) :
    ((∃ error ∈ errors, EvaluatorFailure error.1) →
      validator.validateWithLimits formData maximum parameterBytes =
        .indeterminate ⟨"validator-evaluation-failed"⟩) ∧
    ((∀ error ∈ errors, ¬ EvaluatorFailure error.1) →
      validator.validateWithLimits formData maximum parameterBytes =
        outcomeOf maximum (errors.map fun error => error.2 parameterBytes)) ∧
    ∀ (validator' : Validator) (errors' : List (ValidationErrorKind × (Nat → ValidationFinding))),
      validator'.iterErrors formData = errors'.map .ofKind → errors.Perm errors' →
      validator.validateWithLimits formData maximum parameterBytes =
        validator'.validateWithLimits formData maximum parameterBytes := by
  have hfailed {validator : Validator}
      {errors : List (ValidationErrorKind × (Nat → ValidationFinding))}
      (hiter : validator.iterErrors formData = errors.map .ofKind)
      (h : ∃ error ∈ errors, EvaluatorFailure error.1) :
      validator.validateWithLimits formData maximum parameterBytes =
        .indeterminate ⟨"validator-evaluation-failed"⟩ := by
    obtain ⟨error, hmem, hfailure⟩ := h
    rw [Validator.validateWithLimits, hiter]
    exact collectFindings_failed
      ⟨_, List.mem_map_of_mem hmem, (evaluatorFailed_iff error.1).mpr hfailure⟩ _ _ _
  have hcollected {validator : Validator}
      {errors : List (ValidationErrorKind × (Nat → ValidationFinding))}
      (hiter : validator.iterErrors formData = errors.map .ofKind)
      (hwf : ∀ error ∈ errors, (error.2 parameterBytes).parameters.WF)
      (h : ∀ error ∈ errors, ¬ EvaluatorFailure error.1) :
      validator.validateWithLimits formData maximum parameterBytes =
        outcomeOf maximum (errors.map fun error => error.2 parameterBytes) := by
    rw [Validator.validateWithLimits, hiter, collectFindings_eq ?_ ?_
      ⟨.nil compareFindings maximum, by simp⟩ (fun _ h => absurd h List.not_mem_nil) (by simp)]
    · rw [List.nil_append, List.map_map]
      rfl
    · intro error hmem
      obtain ⟨original, horiginal, rfl⟩ := List.mem_map.mp hmem
      exact Bool.eq_false_iff.mpr fun hf =>
        h original horiginal ((evaluatorFailed_iff original.1).mp hf)
    · intro error hmem
      obtain ⟨original, horiginal, rfl⟩ := List.mem_map.mp hmem
      exact hwf original horiginal
  refine ⟨hfailed hiter, hcollected hiter hwf, fun validator' errors' hiter' hperm => ?_⟩
  have hwf' : ∀ error ∈ errors', (error.2 parameterBytes).parameters.WF :=
    fun error hmem => hwf error (hperm.mem_iff.mpr hmem)
  by_cases h : ∃ error ∈ errors, EvaluatorFailure error.1
  · obtain ⟨error, hmem, hfailure⟩ := h
    rw [hfailed hiter ⟨error, hmem, hfailure⟩,
      hfailed hiter' ⟨error, hperm.mem_iff.mp hmem, hfailure⟩]
  · have hnone : ∀ error ∈ errors, ¬ EvaluatorFailure error.1 :=
      fun error hmem hfailure => h ⟨error, hmem, hfailure⟩
    rw [hcollected hiter hwf hnone, hcollected hiter' hwf' fun error hmem =>
      hnone error (hperm.mem_iff.mpr hmem)]
    refine outcomeOf_perm (hperm.map _) (fun f hf => ?_) maximum
    obtain ⟨error, hmem, rfl⟩ := List.mem_map.mp hf
    exact hwf error hmem

/-- Two errors that a limit of one has to choose from, the larger one first and again at last. -/
def twoErrors : List (ValidationErrorKind × (Nat → ValidationFinding)) :=
  [(.other "type", fun _ => ⟨"type", ["b"], ⟨"", []⟩, .object []⟩),
    (.propertyNames (.other "pattern"), fun _ => ⟨"propertyNames", ["a"], ⟨"", []⟩, .object []⟩),
    (.other "type", fun _ => ⟨"type", ["b"], ⟨"", []⟩, .object []⟩)]

theorem retention_canonical_two :
    Validator.validateWithLimits ⟨fun _ => twoErrors.map .ofKind⟩ .null 1 0 =
      outcomeOf 1 (twoErrors.map fun error => error.2 0) := by
  refine (retention_canonical _ .null 1 0 twoErrors rfl ?_).2.1 fun error hmem hfailure => ?_
  · decide
  · have hnone : ∀ error ∈ twoErrors, error.1.evaluatorFailed = false := by decide
    exact absurd ((evaluatorFailed_iff error.1).mpr hfailure)
      (Bool.eq_false_iff.mp (hnone error hmem))

end Schemaform
