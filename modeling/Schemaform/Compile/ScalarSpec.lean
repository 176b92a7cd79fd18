import Schemaform.Compile.Assertions
import Schemaform.Lib.Outcome

/-!
# Compile.ScalarSpec

A compiled control holds exactly the values its schemas assert.

* `kindOf`: the kind of a value; `admittedKinds_spec`: it is admitted when every `type` holds.
* `Offers`: a value among the options; every narrowing step intersects what is offered.
* `narrowedChoices_spec`, `scalarChoices_spec`: what the options offer.
* `control_compatible_iff_asserts`: the control and the assertions agree on every value.
-/

namespace Schemaform.Engine

/-! ## Kinds -/

def kindOf : Value → ProjectedKind
  | .null => .null
  | .bool _ => .boolean
  | .number literal => if numberIsInteger literal then .integer else .number
  | .string _ => .string
  | .array _ => .array
  | .object _ => .object

theorem mem_insertProjectedKind {name : String} {kind : ProjectedKind}
    (h : projectedKind name = some kind) (kinds : Finset ProjectedKind) (value : Value) :
    kindOf value ∈ insertProjectedKind kinds kind ↔
      kindOf value ∈ kinds ∨ valueMatchesType value name = true := by
  unfold projectedKind at h
  split at h
  case h_8 => cases h
  all_goals
    obtain rfl := Option.some.inj h
    cases value with
    | number literal =>
      cases hi : numberIsInteger literal <;>
        simp [insertProjectedKind, kindOf, valueMatchesType, Value.isString, Value.isNumber,
          Value.isBoolean, Value.isNull, Value.isObject, Value.isArray, Value.asNumber, hi,
          or_comm]
    | _ =>
      simp [insertProjectedKind, kindOf, valueMatchesType, Value.isString, Value.isNumber,
        Value.isBoolean, Value.isNull, Value.isObject, Value.isArray, Value.asNumber, or_comm]

theorem mem_insertKinds {names : List Value} {kinds out : Finset ProjectedKind}
    (h : insertKinds kinds names = some out) (value : Value) :
    kindOf value ∈ out ↔ kindOf value ∈ kinds ∨
      (names.filterMap Value.asString).any (valueMatchesType value) = true := by
  induction names generalizing kinds with
  | nil =>
    obtain rfl := Option.some.inj h
    simp
  | cons name names ih =>
    unfold insertKinds at h
    obtain ⟨text, htext, h⟩ := Option.bind_eq_some_iff.mp h
    obtain ⟨kind, hkind, h⟩ := Option.bind_eq_some_iff.mp h
    rw [ih h, mem_insertProjectedKind hkind, List.filterMap_cons_some htext, List.any_cons,
      Bool.or_eq_true, or_assoc]

theorem mem_declaredProjectedKinds {declared : Value} {kinds : Finset ProjectedKind}
    (h : declaredProjectedKinds declared = some kinds) (value : Value) :
    kindOf value ∈ kinds ↔ valueMatchesTypeDeclaration value declared = true := by
  cases declared with
  | string name =>
    obtain ⟨kind, hkind, rfl⟩ := Option.map_eq_some_iff.mp h
    rw [mem_insertProjectedKind hkind]
    simp [valueMatchesTypeDeclaration]
  | array names =>
    rw [mem_insertKinds h]
    simp [valueMatchesTypeDeclaration]
  | _ => cases h

theorem mem_retainKinds {declarations : List Value} {kinds out : Finset ProjectedKind}
    (h : retainKinds kinds declarations = some out) (value : Value) :
    kindOf value ∈ out ↔ kindOf value ∈ kinds ∧
      ∀ declared ∈ declarations, valueMatchesTypeDeclaration value declared = true := by
  induction declarations generalizing kinds with
  | nil =>
    obtain rfl := Option.some.inj h
    simp
  | cons declared declarations ih =>
    unfold retainKinds at h
    obtain ⟨admitted, hadmitted, h⟩ := Option.bind_eq_some_iff.mp h
    rw [ih h, Finset.mem_inter, mem_declaredProjectedKinds hadmitted, List.forall_mem_cons,
      and_assoc]

theorem admittedKinds_spec {applicable : List LocatedSchema} {admitted : Finset ProjectedKind}
    (h : admittedKinds applicable = some admitted) (value : Value) :
    kindOf value ∈ admitted ↔ ∀ declared ∈ typeDeclarations applicable,
      valueMatchesTypeDeclaration value declared = true := by
  unfold admittedKinds at h
  cases ht : typeDeclarations applicable with
  | nil =>
    rw [ht] at h
    cases h
  | cons declared declarations =>
    rw [ht] at h
    obtain ⟨kinds, hkinds, h⟩ := Option.bind_eq_some_iff.mp h
    rw [mem_retainKinds h, mem_declaredProjectedKinds hkinds, List.forall_mem_cons]

/-! A declaration that admits numbers admits integers. -/

def Widened (kinds : Finset ProjectedKind) : Prop := .number ∈ kinds → .integer ∈ kinds

theorem insertProjectedKind_widened {kinds : Finset ProjectedKind} (h : Widened kinds)
    (kind : ProjectedKind) : Widened (insertProjectedKind kinds kind) := by
  intro hn
  unfold insertProjectedKind at hn ⊢
  by_cases hk : kind = .number
  · rw [if_pos hk]
    exact Finset.mem_insert_self _ _
  · rw [if_neg hk] at hn ⊢
    have hne : ProjectedKind.number ≠ kind := fun he => hk he.symm
    exact Finset.mem_insert_of_mem (h (Finset.mem_of_mem_insert_of_ne hn hne))

theorem insertKinds_widened {names : List Value} {kinds out : Finset ProjectedKind}
    (hw : Widened kinds) (h : insertKinds kinds names = some out) : Widened out := by
  induction names generalizing kinds with
  | nil =>
    obtain rfl := Option.some.inj h
    exact hw
  | cons name names ih =>
    unfold insertKinds at h
    obtain ⟨text, -, h⟩ := Option.bind_eq_some_iff.mp h
    obtain ⟨kind, -, h⟩ := Option.bind_eq_some_iff.mp h
    exact ih (insertProjectedKind_widened hw kind) h

theorem widened_empty : Widened ∅ := fun h => absurd h (Finset.notMem_empty _)

theorem declaredProjectedKinds_widened {declared : Value} {kinds : Finset ProjectedKind}
    (h : declaredProjectedKinds declared = some kinds) : Widened kinds := by
  cases declared with
  | string name =>
    obtain ⟨kind, -, rfl⟩ := Option.map_eq_some_iff.mp h
    exact insertProjectedKind_widened widened_empty kind
  | array names => exact insertKinds_widened widened_empty h
  | _ => cases h

theorem retainKinds_widened {declarations : List Value} {kinds out : Finset ProjectedKind}
    (hw : Widened kinds) (h : retainKinds kinds declarations = some out) : Widened out := by
  induction declarations generalizing kinds with
  | nil =>
    obtain rfl := Option.some.inj h
    exact hw
  | cons declared declarations ih =>
    unfold retainKinds at h
    obtain ⟨admitted, hadmitted, h⟩ := Option.bind_eq_some_iff.mp h
    refine ih (fun hn => ?_) h
    obtain ⟨hl, hr⟩ := Finset.mem_inter.mp hn
    exact Finset.mem_inter.mpr ⟨hw hl, declaredProjectedKinds_widened hadmitted hr⟩

theorem admittedKinds_widened {applicable : List LocatedSchema} {admitted : Finset ProjectedKind}
    (h : admittedKinds applicable = some admitted) : Widened admitted := by
  unfold admittedKinds at h
  cases ht : typeDeclarations applicable with
  | nil =>
    rw [ht] at h
    cases h
  | cons declared declarations =>
    rw [ht] at h
    obtain ⟨kinds, hkinds, h⟩ := Option.bind_eq_some_iff.mp h
    exact retainKinds_widened (declaredProjectedKinds_widened hkinds) h

/-- The inferred kind and null are all the list admits. -/
theorem inferKind_spec {applicable : List LocatedSchema} {kind : ProjectedKind}
    (h : inferKind applicable = some kind) : ∃ admitted,
      admittedKinds applicable = some admitted ∧
      (kind = .null ∧ admitted = {.null} ∨
        kind = .number ∧ admitted.erase .null = {.number, .integer} ∨
        kind ≠ .null ∧ kind ≠ .number ∧ admitted.erase .null = {kind}) := by
  obtain ⟨admitted, hadmitted, h⟩ := Option.bind_eq_some_iff.mp h
  refine ⟨admitted, hadmitted, ?_⟩
  dsimp only at h
  by_cases hempty : admitted.erase .null = ∅
  · rw [if_pos hempty] at h
    by_cases hnull : ProjectedKind.null ∈ admitted
    · rw [if_pos (decide_eq_true hnull)] at h
      refine .inl ⟨(Option.some.inj h).symm, ?_⟩
      rw [← Finset.insert_erase hnull, hempty]
      rfl
    · rw [if_neg (mt of_decide_eq_true hnull)] at h
      cases h
  · rw [if_neg hempty] at h
    split at h
    · cases h
    · by_cases hboth : admitted.erase .null = {.number, .integer}
      · rw [if_pos hboth] at h
        exact .inr (.inl ⟨(Option.some.inj h).symm, hboth⟩)
      · rw [if_neg hboth] at h
        by_cases hone : (admitted.erase .null).card = 1
        · rw [if_pos hone] at h
          obtain ⟨only, honly⟩ := Finset.card_eq_one.mp hone
          have hfound := List.find?_some h
          have hk : kind ∈ admitted.erase .null := of_decide_eq_true hfound
          rw [honly, Finset.mem_singleton] at hk
          subst hk
          have hmem : kind ∈ admitted.erase .null := honly ▸ Finset.mem_singleton_self kind
          have hwide := admittedKinds_widened hadmitted
          refine .inr (.inr ⟨Finset.ne_of_mem_erase hmem, ?_, honly⟩)
          intro hnumber
          subst hnumber
          have hi : ProjectedKind.integer ∈ admitted.erase .null :=
            Finset.mem_erase.mpr ⟨by decide, hwide (Finset.mem_of_mem_erase hmem)⟩
          rw [honly, Finset.mem_singleton] at hi
          cases hi
        · rw [if_neg hone] at h
          cases h

theorem kindOf_eq_null {value : Value} : kindOf value = .null ↔ value = .null := by
  cases value with
  | number literal => cases hi : numberIsInteger literal <;> simp [kindOf, hi]
  | _ => simp [kindOf]

/-- The check a control of a plain kind makes. -/
theorem controlKind_compatible {applicable : List LocatedSchema} {kind : ProjectedKind}
    {controlKind : ControlKind} (h : inferKind applicable = some kind)
    (hk : kind.controlKind = some controlKind) {control : ControlDefinition}
    (hkind : control.kind = controlKind)
    (hnull : control.acceptsNull = applicableAcceptsNull applicable) (value : Value) :
    controlValueIsCompatible control value = true ↔ ∀ declared ∈ typeDeclarations applicable,
      valueMatchesTypeDeclaration value declared = true := by
  obtain ⟨admitted, hadmitted, hcases⟩ := inferKind_spec h
  have hne : typeDeclarations applicable ≠ [] := by
    intro hnil
    unfold admittedKinds at hadmitted
    rw [hnil] at hadmitted
    cases hadmitted
  by_cases hv : value = .null
  · subst hv
    show control.acceptsNull = true ↔ _
    rw [hnull]
    simp [applicableAcceptsNull, hne]
  · rw [← admittedKinds_spec hadmitted]
    have hkv : kindOf value ≠ .null := mt kindOf_eq_null.mp hv
    have herase : kindOf value ∈ admitted ↔ kindOf value ∈ admitted.erase .null := by
      rw [Finset.mem_erase]
      exact ⟨fun hm => ⟨hkv, hm⟩, fun hm => hm.2⟩
    have hisNull : value.isNull = false := by cases value <;> first | rfl | exact absurd rfl hv
    rw [herase]
    unfold controlValueIsCompatible
    rw [hisNull, hkind]
    rcases hcases with ⟨rfl, -⟩ | ⟨rfl, hn⟩ | ⟨-, hnumber, hn⟩
    · cases hk
    · obtain rfl := Option.some.inj hk
      rw [hn]
      cases value with
      | number literal =>
        cases hi : numberIsInteger literal <;> simp [kindOf, hi, Value.isNumber]
      | _ => simp [kindOf, Value.isNumber]
    · rw [hn, Finset.mem_singleton]
      cases kind with
      | number => exact absurd rfl hnumber
      | null => cases hk
      | object => cases hk
      | array => cases hk
      | _ =>
        obtain rfl := Option.some.inj hk
        cases value with
        | number literal =>
          cases hi : numberIsInteger literal <;>
            simp [kindOf, hi, Value.isString, Value.isBoolean, Value.asNumber]
        | _ => simp [kindOf, Value.isString, Value.isBoolean, Value.asNumber]

/-! ## Options -/

def Offers (choices : List CompiledChoice) (value : Value) : Prop :=
  ∃ choice ∈ choices, SameJson choice.value value

def ChoicesWF (choices : List CompiledChoice) : Prop := ∀ choice ∈ choices, choice.value.WF

theorem retainAllowedChoices_wf {choices : List CompiledChoice} (h : ChoicesWF choices)
    (allowed : List Value) : ChoicesWF (retainAllowedChoices choices allowed) :=
  fun choice hc => h choice (List.mem_of_mem_filter hc)

theorem offers_retain {choices : List CompiledChoice} {allowed : List Value} {value : Value}
    (hc : ChoicesWF choices) (ha : ∀ u ∈ allowed, u.WF) (hv : value.WF) :
    Offers (retainAllowedChoices choices allowed) value ↔
      Offers choices value ∧ ∃ u ∈ allowed, SameJson u value := by
  constructor
  · intro ho
    obtain ⟨choice, hmem, hsame⟩ := ho
    obtain ⟨hmem, hany⟩ := List.mem_filter.mp hmem
    obtain ⟨u, hu, hequal⟩ := List.any_eq_true.mp hany
    have hcu := (jsonValuesEqual_iff_same (hc choice hmem) (ha u hu)).mp hequal
    have huc := sameJson_symm (hc choice hmem) (ha u hu) hcu
    exact ⟨⟨choice, hmem, hsame⟩, u, hu,
      sameJson_trans (ha u hu) (hc choice hmem) hv huc hsame⟩
  · intro ho
    obtain ⟨⟨choice, hmem, hsame⟩, u, hu, husame⟩ := ho
    have hvu := sameJson_symm (ha u hu) hv husame
    have hcu := sameJson_trans (hc choice hmem) hv (ha u hu) hsame hvu
    have hequal := (jsonValuesEqual_iff_same (hc choice hmem) (ha u hu)).mpr hcu
    exact ⟨choice, List.mem_filter.mpr ⟨hmem, List.any_eq_true.mpr ⟨u, hu, hequal⟩⟩, hsame⟩

/-- Narrowing by one source after another offers what every source has. -/
theorem offers_foldl_retain {σ : Type} (allowed : σ → List Value) (sources : List σ)
    {choices : List CompiledChoice} {value : Value} (hc : ChoicesWF choices)
    (ha : ∀ source ∈ sources, ∀ u ∈ allowed source, u.WF) (hv : value.WF) :
    ChoicesWF (sources.foldl (fun cs source => retainAllowedChoices cs (allowed source)) choices) ∧
    (Offers (sources.foldl (fun cs source => retainAllowedChoices cs (allowed source)) choices)
        value ↔
      Offers choices value ∧ ∀ source ∈ sources, ∃ u ∈ allowed source, SameJson u value) := by
  induction sources generalizing choices with
  | nil => simp [hc]
  | cons source sources ih =>
    obtain ⟨hwf, hoffers⟩ := ih (retainAllowedChoices_wf hc (allowed source))
      fun other ho => ha other (List.mem_cons_of_mem _ ho)
    refine ⟨hwf, ?_⟩
    rw [List.foldl_cons, hoffers, offers_retain hc (ha source List.mem_cons_self) hv,
      List.forall_mem_cons, and_assoc]

theorem offers_append_one {choices : List CompiledChoice} {choice : CompiledChoice}
    {value : Value} : Offers (choices ++ [choice]) value ↔
      Offers choices value ∨ SameJson choice.value value := by
  simp [Offers, or_and_right, exists_or]

theorem choicesWF_append_one {choices : List CompiledChoice} {choice : CompiledChoice}
    (hc : ChoicesWF choices) (h : choice.value.WF) : ChoicesWF (choices ++ [choice]) := by
  intro c hmem
  rcases List.mem_append.mp hmem with hmem | hmem
  · exact hc c hmem
  · exact List.mem_singleton.mp hmem ▸ h

theorem offers_of_any {choices : List CompiledChoice} {constant value : Value}
    (hc : ChoicesWF choices) (hconstant : constant.WF) (hv : value.WF)
    (h : choices.any (fun existing => jsonValuesEqual existing.value constant) = true)
    (hsame : SameJson constant value) : Offers choices value := by
  obtain ⟨existing, hmem, hequal⟩ := List.any_eq_true.mp h
  have he := (jsonValuesEqual_iff_same (hc existing hmem) hconstant).mp hequal
  exact ⟨existing, hmem, sameJson_trans (hc existing hmem) hconstant hv he hsame⟩

theorem addUnique_wf {values unique : List CompiledChoice} (hvalues : ChoicesWF values)
    (hunique : ChoicesWF unique) : ChoicesWF (values.foldl addUnique unique) := by
  induction values generalizing unique with
  | nil => exact hunique
  | cons choice values ih =>
    rw [List.foldl_cons]
    refine ih (fun c h => hvalues c (List.mem_cons_of_mem _ h)) ?_
    unfold addUnique
    split
    · exact hunique
    · exact choicesWF_append_one hunique (hvalues choice List.mem_cons_self)

theorem offers_foldl_addUnique {values unique : List CompiledChoice} {value : Value}
    (hvalues : ChoicesWF values) (hunique : ChoicesWF unique) (hv : value.WF) :
    Offers (values.foldl addUnique unique) value ↔ Offers unique value ∨ Offers values value := by
  induction values generalizing unique with
  | nil => simp [Offers]
  | cons choice values ih =>
    have hchoice := hvalues choice List.mem_cons_self
    have hrest : ChoicesWF values := fun c h => hvalues c (List.mem_cons_of_mem _ h)
    have hcons : Offers (choice :: values) value ↔
        SameJson choice.value value ∨ Offers values value := by
      simp [Offers]
    rw [List.foldl_cons, hcons]
    by_cases hany : unique.any (fun existing => jsonValuesEqual existing.value choice.value) = true
    · have hstep : addUnique unique choice = unique := if_pos hany
      rw [hstep, ih hrest hunique]
      have habsorb := offers_of_any hunique hchoice hv hany
      constructor
      · intro h
        exact h.imp_right .inr
      · intro h
        exact h.elim .inl (fun h => h.elim (fun h => .inl (habsorb h)) .inr)
    · have hstep : addUnique unique choice = unique ++ [choice] := if_neg hany
      rw [hstep, ih hrest (choicesWF_append_one hunique hchoice), offers_append_one, or_assoc]

/-! ## Constant choices -/

theorem offers_foldl_addConstant {branches : List ConstantBranch} {choices : List CompiledChoice}
    (hb : ∀ branch ∈ branches, branch.constant.WF) (hc : ChoicesWF choices) {value : Value}
    (hv : value.WF) :
    ChoicesWF (branches.foldl addConstant choices) ∧
    (Offers (branches.foldl addConstant choices) value ↔ Offers choices value ∨
      ∃ branch ∈ branches, branch.satisfiesType = true ∧ SameJson branch.constant value) := by
  induction branches generalizing choices with
  | nil => simp [hc]
  | cons branch branches ih =>
    have hbranch := hb branch List.mem_cons_self
    have hrest : ∀ other ∈ branches, other.constant.WF :=
      fun other h => hb other (List.mem_cons_of_mem _ h)
    rw [List.foldl_cons, List.exists_mem_cons_iff]
    by_cases hskip : (!branch.satisfiesType || choices.any (fun existing =>
        jsonValuesEqual existing.value branch.constant)) = true
    · have hstep : addConstant choices branch = choices := if_pos hskip
      rw [hstep]
      obtain ⟨hwf, hoffers⟩ := ih hrest hc
      refine ⟨hwf, hoffers.trans ?_⟩
      constructor
      · intro h
        exact h.imp_right .inr
      · intro h
        rcases h with h | ⟨hsat, hsame⟩ | h
        · exact .inl h
        · rw [hsat] at hskip
          exact .inl (offers_of_any hc hbranch hv hskip hsame)
        · exact .inr h
    · have hstep : addConstant choices branch = choices ++ [branch.choice] := if_neg hskip
      have hsat : branch.satisfiesType = true := by
        simp only [Bool.or_eq_true, Bool.not_eq_true', not_or, Bool.not_eq_false] at hskip
        exact hskip.1
      have hadded : ChoicesWF (choices ++ [branch.choice]) := choicesWF_append_one hc hbranch
      rw [hstep]
      obtain ⟨hwf, hoffers⟩ := ih hrest hadded
      refine ⟨hwf, hoffers.trans ?_⟩
      rw [offers_append_one, or_assoc]
      simp only [hsat, true_and]
      rfl

theorem recognizeConstantChoice_ok {keyword : String} {branches : List Value}
    {choices : List CompiledChoice} (h : recognizeConstantChoice keyword branches = .ok choices) :
    ∃ constants,
      List.Forall₂ (fun branch constant => constantBranch branch = .ok constant) branches constants ∧
      (keyword = "oneOf" → repeatsConstant constants = false) ∧
      choices = constants.foldl addConstant [] := by
  obtain ⟨constants, hconstants, h⟩ := bind_eq_ok.mp h
  refine ⟨constants, mapM_eq_ok.mp hconstants, ?_⟩
  dsimp only at h
  by_cases hrepeats : (keyword == "oneOf" && repeatsConstant constants) = true
  · rw [if_pos hrepeats] at h
    cases h
  · rw [if_neg hrepeats] at h
    refine ⟨fun hk => ?_, (Except.ok.inj h).symm⟩
    rw [hk] at hrepeats
    simpa using hrepeats

/-- A recognized `anyOf` or `oneOf` offers what one of its branches asserts. -/
theorem recognizeConstantChoice_offers {keyword : String} {branches : List Value}
    {choices : List CompiledChoice} (hb : ∀ branch ∈ branches, branch.WF)
    (h : recognizeConstantChoice keyword branches = .ok choices) :
    ChoicesWF choices ∧ ∀ value : Value, value.WF →
      (Offers choices value ↔ ∃ branch ∈ branches, KeywordsHold branch value) := by
  obtain ⟨constants, hall, -, rfl⟩ := recognizeConstantChoice_ok h
  have hwf : ∀ constant ∈ constants, constant.constant.WF := by
    intro constant hmem
    obtain ⟨branch, hbranch, hc⟩ := ListEdit.mem_of_forall₂_right hall hmem
    exact Value.get_wf (hb branch hbranch) (constantBranch_ok hc).1
  have hnil : ChoicesWF [] := fun c h => absurd h List.not_mem_nil
  have hnull : Value.null.WF := by decide
  refine ⟨(offers_foldl_addConstant hwf hnil hnull).1, fun value hv => ?_⟩
  rw [(offers_foldl_addConstant hwf hnil hv).2]
  constructor
  · intro ho
    rcases ho with ⟨c, hc, -⟩ | ⟨constant, hmem, hs⟩
    · exact absurd hc List.not_mem_nil
    · obtain ⟨branch, hbranch, hc⟩ := ListEdit.mem_of_forall₂_right hall hmem
      exact ⟨branch, hbranch, (constantBranch_holds (hb branch hbranch) hv hc).mpr hs⟩
  · intro ho
    obtain ⟨branch, hbranch, hk⟩ := ho
    obtain ⟨constant, hmem, hc⟩ := ListEdit.mem_of_forall₂_right hall.flip hbranch
    exact .inr ⟨constant, hmem, (constantBranch_holds (hb branch hbranch) hv hc).mp hk⟩

theorem repeatsConstant_apart {constants : List ConstantBranch}
    (h : repeatsConstant constants = false) {i j : Nat} (hij : i < j) {a b : ConstantBranch}
    (ha : constants[i]? = some a) (hb : constants[j]? = some b) :
    jsonValuesEqual a.constant b.constant = false := by
  by_contra hequal
  rw [Bool.not_eq_false] at hequal
  have htake : a ∈ constants.take j := by
    refine List.mem_of_getElem? (i := i) ?_
    rw [List.getElem?_take_of_lt hij]
    exact ha
  have hindex : (b, j) ∈ constants.zipIdx := by
    rw [List.mem_zipIdx_iff_getElem?]
    exact hb
  have hrepeats : repeatsConstant constants = true :=
    List.any_eq_true.mpr ⟨(b, j), hindex, List.any_eq_true.mpr ⟨a, htake, hequal⟩⟩
  rw [h] at hrepeats
  cases hrepeats

/-- The constants of a recognized `oneOf` differ, so at most one branch holds. -/
theorem recognizeConstantChoice_unique {branches : List Value} {choices : List CompiledChoice}
    (hb : ∀ branch ∈ branches, branch.WF)
    (h : recognizeConstantChoice "oneOf" branches = .ok choices) {value : Value} (hv : value.WF)
    {i j : Nat} {left right : Value} (hi : branches[i]? = some left)
    (hj : branches[j]? = some right) (hleft : KeywordsHold left value)
    (hright : KeywordsHold right value) : i = j := by
  obtain ⟨constants, hall, hdistinct, -⟩ := recognizeConstantChoice_ok h
  have hdistinct := hdistinct rfl
  obtain ⟨a, ha, hac⟩ := ListEdit.getElem?_of_forall₂ hall hi
  obtain ⟨b, hb', hbc⟩ := ListEdit.getElem?_of_forall₂ hall hj
  have hlw := hb left (List.mem_of_getElem? hi)
  have hrw := hb right (List.mem_of_getElem? hj)
  have haw := Value.get_wf hlw (constantBranch_ok hac).1
  have hbw := Value.get_wf hrw (constantBranch_ok hbc).1
  have hav := ((constantBranch_holds hlw hv hac).mp hleft).2
  have hbv := ((constantBranch_holds hrw hv hbc).mp hright).2
  have hab := sameJson_trans haw hv hbw hav (sameJson_symm hbw hv hbv)
  have hba := sameJson_symm haw hbw hab
  rcases Nat.lt_trichotomy i j with hlt | heq | hgt
  · rw [← jsonValuesEqual_iff_same haw hbw, repeatsConstant_apart hdistinct hlt ha hb'] at hab
    cases hab
  · exact heq
  · rw [← jsonValuesEqual_iff_same hbw haw, repeatsConstant_apart hdistinct hgt hb' ha] at hba
    cases hba

/-! ## Sources -/

theorem mem_typeDeclarations {applicable : List LocatedSchema} {declared : Value} :
    declared ∈ typeDeclarations applicable ↔
      ∃ located ∈ applicable, located.schema.get "type" = some declared :=
  List.mem_filterMap

theorem mem_branchApplicators {applicable : List LocatedSchema} {keyword : String}
    {entry : LocatedSchema × List Value} : entry ∈ branchApplicators applicable keyword ↔
      entry.1 ∈ applicable ∧ entry.1.schema.get keyword = some (.array entry.2) := by
  rw [branchApplicators, List.mem_filterMap]
  constructor
  · intro h
    obtain ⟨located, hmem, h⟩ := h
    obtain ⟨branches, hbranches, rfl⟩ := Option.map_eq_some_iff.mp h
    obtain ⟨member, hmember, harray⟩ := Option.bind_eq_some_iff.mp hbranches
    cases member with
    | array items =>
      obtain rfl := Option.some.inj harray
      exact ⟨hmem, hmember⟩
    | _ => cases harray
  · intro h
    obtain ⟨hmem, hget⟩ := h
    refine ⟨entry.1, hmem, ?_⟩
    rw [hget]
    rfl

theorem mem_constantAssertions {applicable : List LocatedSchema} {entry : LocatedSchema × Value} :
    entry ∈ constantAssertions applicable ↔
      entry.1 ∈ applicable ∧ entry.1.schema.get "const" = some entry.2 := by
  rw [constantAssertions, List.mem_filterMap]
  constructor
  · intro h
    obtain ⟨located, hmem, h⟩ := h
    obtain ⟨value, hvalue, rfl⟩ := Option.map_eq_some_iff.mp h
    exact ⟨hmem, hvalue⟩
  · intro h
    obtain ⟨hmem, hget⟩ := h
    refine ⟨entry.1, hmem, ?_⟩
    rw [hget]
    rfl

theorem mem_recognizedConstantChoices {applicable : List LocatedSchema}
    {recognized : RecognizedConstantChoice} :
    recognized ∈ recognizedConstantChoices applicable ↔
      ∃ keyword ∈ ["anyOf", "oneOf"], ∃ entry ∈ branchApplicators applicable keyword,
        ∃ choices, recognizeConstantChoice keyword entry.2 = .ok choices ∧
          recognized = ⟨entry.1, keyword, entry.1.pointer ++ [keyword], choices⟩ := by
  rw [recognizedConstantChoices, List.mem_mergeSort, List.mem_flatMap]
  refine exists_congr fun keyword => and_congr_right fun _ => ?_
  rw [List.mem_filterMap]
  refine exists_congr fun entry => and_congr_right fun _ => ?_
  dsimp only
  cases hr : recognizeConstantChoice keyword entry.2 with
  | error problem => simp
  | ok choices => simp [eq_comm]

/-- What every source of options admits. -/
structure SourcesAdmit (constantChoices : List RecognizedConstantChoice)
    (enumerations : List (List Value)) (constants : List Value) (value : Value) : Prop where
  constantChoices : ∀ other ∈ constantChoices, Offers other.choices value
  enumerations : ∀ allowed ∈ enumerations, ∃ u ∈ allowed, SameJson u value
  constants : ∀ constant ∈ constants, SameJson constant value

structure SourcesWF (constantChoices : List RecognizedConstantChoice)
    (enumerations : List (List Value)) (constants : List Value) : Prop where
  constantChoices : ∀ other ∈ constantChoices, ChoicesWF other.choices
  enumerations : ∀ allowed ∈ enumerations, ∀ u ∈ allowed, u.WF
  constants : ∀ constant ∈ constants, constant.WF

section Applicable

variable {applicable : List LocatedSchema} (hwf : ∀ located ∈ applicable, located.schema.WF)

include hwf

theorem sources_wf : SourcesWF (recognizedConstantChoices applicable)
    ((branchApplicators applicable "enum").map Prod.snd)
    ((constantAssertions applicable).map Prod.snd) where
  constantChoices := by
    intro other hother
    obtain ⟨keyword, -, entry, hentry, choices, hr, rfl⟩ :=
      mem_recognizedConstantChoices.mp hother
    obtain ⟨hmem, hget⟩ := mem_branchApplicators.mp hentry
    have hbranches := Value.wf_array.mp (Value.get_wf (hwf _ hmem) hget)
    exact (recognizeConstantChoice_offers hbranches hr).1
  enumerations := by
    intro allowed hallowed
    obtain ⟨entry, hentry, rfl⟩ := List.mem_map.mp hallowed
    obtain ⟨hmem, hget⟩ := mem_branchApplicators.mp hentry
    exact Value.wf_array.mp (Value.get_wf (hwf _ hmem) hget)
  constants := by
    intro constant hconstant
    obtain ⟨entry, hentry, rfl⟩ := List.mem_map.mp hconstant
    obtain ⟨hmem, hget⟩ := mem_constantAssertions.mp hentry
    exact Value.get_wf (hwf _ hmem) hget

/-- The assertions of a list are its types and what its sources admit. -/
theorem asserts_iff_sources {value : Value} (hv : value.WF) :
    (∀ located ∈ applicable, Asserts located.schema value) ↔
      (∀ declared ∈ typeDeclarations applicable, TypeHolds declared value) ∧
      SourcesAdmit (recognizedConstantChoices applicable)
        ((branchApplicators applicable "enum").map Prod.snd)
        ((constantAssertions applicable).map Prod.snd) value := by
  constructor
  · intro h
    refine ⟨fun declared hd => ?_, ⟨fun other hother => ?_, fun allowed hallowed => ?_,
      fun constant hconstant => ?_⟩⟩
    · obtain ⟨located, hmem, hget⟩ := mem_typeDeclarations.mp hd
      exact (h located hmem).keywords.type declared hget
    · obtain ⟨keyword, hkeyword, entry, hentry, choices, hr, rfl⟩ :=
        mem_recognizedConstantChoices.mp hother
      obtain ⟨hmem, hget⟩ := mem_branchApplicators.mp hentry
      have hbranches := Value.wf_array.mp (Value.get_wf (hwf _ hmem) hget)
      refine ((recognizeConstantChoice_offers hbranches hr).2 value hv).mpr ?_
      rcases List.mem_pair.mp hkeyword with rfl | rfl
      · exact (h entry.1 hmem).anyOf entry.2 choices hget hr
      · obtain ⟨index, ⟨branch, hbranch, hk⟩, -⟩ := (h entry.1 hmem).oneOf entry.2 choices hget hr
        exact ⟨branch, List.mem_of_getElem? hbranch, hk⟩
    · obtain ⟨entry, hentry, rfl⟩ := List.mem_map.mp hallowed
      obtain ⟨hmem, hget⟩ := mem_branchApplicators.mp hentry
      exact (h entry.1 hmem).keywords.enum entry.2 hget
    · obtain ⟨entry, hentry, rfl⟩ := List.mem_map.mp hconstant
      obtain ⟨hmem, hget⟩ := mem_constantAssertions.mp hentry
      exact (h entry.1 hmem).keywords.const entry.2 hget
  · intro h located hmem
    obtain ⟨htypes, hsources⟩ := h
    have hbranches : ∀ keyword branches, located.schema.get keyword = some (.array branches) →
        ∀ branch ∈ branches, branch.WF :=
      fun keyword branches hget => Value.wf_array.mp (Value.get_wf (hwf _ hmem) hget)
    have hholds : ∀ keyword ∈ ["anyOf", "oneOf"], ∀ branches choices,
        located.schema.get keyword = some (.array branches) →
        recognizeConstantChoice keyword branches = .ok choices →
        ∃ branch ∈ branches, KeywordsHold branch value := by
      intro keyword hkeyword branches choices hget hr
      have hother := mem_recognizedConstantChoices.mpr ⟨keyword, hkeyword, (located, branches),
        mem_branchApplicators.mpr ⟨hmem, hget⟩, choices, hr, rfl⟩
      exact ((recognizeConstantChoice_offers (hbranches keyword branches hget) hr).2 value hv).mp
        (hsources.constantChoices _ hother)
    refine ⟨⟨fun declared hd => ?_, fun allowed hallowed => ?_, fun constant hconstant => ?_⟩,
      hholds "anyOf" (by decide), fun branches choices hget hr => ?_⟩
    · exact htypes declared (mem_typeDeclarations.mpr ⟨located, hmem, hd⟩)
    · have hentry : (located, allowed) ∈ branchApplicators applicable "enum" :=
        mem_branchApplicators.mpr ⟨hmem, hallowed⟩
      exact hsources.enumerations allowed (List.mem_map.mpr ⟨_, hentry, rfl⟩)
    · have hentry : (located, constant) ∈ constantAssertions applicable :=
        mem_constantAssertions.mpr ⟨hmem, hconstant⟩
      exact hsources.constants constant (List.mem_map.mpr ⟨_, hentry, rfl⟩)
    · obtain ⟨branch, hbranch, hk⟩ := hholds "oneOf" (by decide) branches choices hget hr
      obtain ⟨index, hindex⟩ := List.getElem?_of_mem hbranch
      refine ⟨index, ⟨branch, hindex, hk⟩, fun other hother => ?_⟩
      obtain ⟨right, hright, hkr⟩ := hother
      exact recognizeConstantChoice_unique (hbranches "oneOf" branches hget) hr hv hright hindex
        hkr hk

end Applicable

/-! ## Narrowing -/

theorem offers_unannotated {allowed : List Value} {value : Value} :
    Offers (allowed.map CompiledChoice.unannotated) value ↔ ∃ u ∈ allowed, SameJson u value := by
  simp [Offers, CompiledChoice.unannotated]

theorem choicesWF_unannotated {allowed : List Value} (h : ∀ u ∈ allowed, u.WF) :
    ChoicesWF (allowed.map CompiledChoice.unannotated) := by
  intro choice hmem
  obtain ⟨u, hu, rfl⟩ := List.mem_map.mp hmem
  exact h u hu

section Narrowing

variable {constantChoices : List RecognizedConstantChoice} {enumerations : List (List Value)}
  {constants : List Value}

/-- The seed leaves every source that it does not use up to be applied. -/
theorem seedChoices_spec (hsource : constantChoices ≠ [] ∨ enumerations ≠ [] ∨ constants ≠ [])
    (hs : SourcesWF constantChoices enumerations constants) (value : Value) :
    ChoicesWF (seedChoices constantChoices enumerations constants).1 ∧
    (∀ allowed ∈ (seedChoices constantChoices enumerations constants).2,
      ∀ u ∈ allowed, u.WF) ∧
    (SourcesAdmit constantChoices enumerations constants value ↔
      Offers (seedChoices constantChoices enumerations constants).1 value ∧
      SourcesAdmit (constantChoices.drop 1)
        (seedChoices constantChoices enumerations constants).2 constants value) := by
  cases constantChoices with
  | cons first rest =>
    refine ⟨hs.constantChoices first List.mem_cons_self, hs.enumerations, ?_⟩
    constructor
    · intro h
      obtain ⟨hfirst, hrest⟩ := List.forall_mem_cons.mp h.constantChoices
      exact ⟨hfirst, hrest, h.enumerations, h.constants⟩
    · intro h
      obtain ⟨hfirst, h⟩ := h
      exact ⟨List.forall_mem_cons.mpr ⟨hfirst, h.constantChoices⟩, h.enumerations, h.constants⟩
  | nil =>
    cases enumerations with
    | cons first rest =>
      obtain ⟨hwf, hrestwf⟩ := List.forall_mem_cons.mp hs.enumerations
      refine ⟨choicesWF_unannotated hwf, hrestwf, ?_⟩
      have hseed : (seedChoices [] (first :: rest) constants).1 =
          first.map CompiledChoice.unannotated := rfl
      rw [hseed, offers_unannotated]
      constructor
      · intro h
        obtain ⟨hfirst, hrest⟩ := List.forall_mem_cons.mp h.enumerations
        exact ⟨hfirst, h.constantChoices, hrest, h.constants⟩
      · intro h
        obtain ⟨hfirst, h⟩ := h
        exact ⟨h.constantChoices, List.forall_mem_cons.mpr ⟨hfirst, h.enumerations⟩, h.constants⟩
    | nil =>
      cases constants with
      | nil => simp at hsource
      | cons constant rest =>
        have hwf := hs.constants constant List.mem_cons_self
        have hseed : (seedChoices [] [] (constant :: rest)).1 =
            [constant].map CompiledChoice.unannotated := rfl
        rw [hseed, offers_unannotated]
        refine ⟨choicesWF_unannotated (by simpa using hwf), hs.enumerations, ?_⟩
        constructor
        · intro h
          exact ⟨⟨constant, List.mem_singleton_self _, h.constants constant List.mem_cons_self⟩,
            h⟩
        · intro h
          exact h.2

theorem offers_filter_types {applicable : List LocatedSchema}
    (hfalse : ∀ located ∈ applicable, located.schema ≠ .bool false)
    {choices : List CompiledChoice} (hc : ChoicesWF choices) {value : Value} (hv : value.WF) :
    Offers (choices.filter fun candidate => applicable.all fun located =>
        located.schema != .bool false &&
          (located.schema.get "type").all (valueMatchesTypeDeclaration candidate.value)) value ↔
      Offers choices value ∧ ∀ declared ∈ typeDeclarations applicable,
        TypeHolds declared value := by
  constructor
  · intro h
    obtain ⟨choice, hmem, hsame⟩ := h
    obtain ⟨hmem, hall⟩ := List.mem_filter.mp hmem
    refine ⟨⟨choice, hmem, hsame⟩, fun declared hd => ?_⟩
    obtain ⟨located, hlocated, hget⟩ := mem_typeDeclarations.mp hd
    have hone := List.all_eq_true.mp hall located hlocated
    rw [hget] at hone
    have hmatch := (Bool.and_eq_true_iff.mp hone).2
    exact typeHolds_same hsame ((typeHolds_iff (hc choice hmem) declared).mp hmatch)
  · intro h
    obtain ⟨⟨choice, hmem, hsame⟩, htypes⟩ := h
    refine ⟨choice, List.mem_filter.mpr ⟨hmem, List.all_eq_true.mpr fun located hl => ?_⟩, hsame⟩
    rw [Bool.and_eq_true]
    refine ⟨bne_iff_ne.mpr (hfalse located hl), ?_⟩
    cases hget : located.schema.get "type" with
    | none => rfl
    | some declared =>
      have hback := sameJson_symm (hc choice hmem) hv hsame
      have ht := htypes declared (mem_typeDeclarations.mpr ⟨located, hl, hget⟩)
      exact (typeHolds_iff (hc choice hmem) declared).mpr (typeHolds_same hback ht)

variable {applicable : List LocatedSchema}
  (hfalse : ∀ located ∈ applicable, located.schema ≠ .bool false)
  (hs : SourcesWF constantChoices enumerations constants)

include hfalse hs

theorem narrowedChoices_offers
    (hsource : constantChoices ≠ [] ∨ enumerations ≠ [] ∨ constants ≠ []) {value : Value}
    (hv : value.WF) :
    ChoicesWF (narrowedChoices applicable constantChoices enumerations constants) ∧
    (Offers (narrowedChoices applicable constantChoices enumerations constants) value ↔
      SourcesAdmit constantChoices enumerations constants value ∧
        ∀ declared ∈ typeDeclarations applicable, TypeHolds declared value) := by
  obtain ⟨hseed, hleft, hadmit⟩ := seedChoices_spec hsource hs value
  obtain ⟨hwf₁, ho₁⟩ := offers_foldl_retain
    (fun other : RecognizedConstantChoice => other.choices.map (·.value))
    (constantChoices.drop 1) hseed (by
      intro other hother u hu
      obtain ⟨choice, hmem, rfl⟩ := List.mem_map.mp hu
      exact hs.constantChoices other (List.mem_of_mem_drop hother) choice hmem) hv
  obtain ⟨hwf₂, ho₂⟩ := offers_foldl_retain (fun allowed => allowed) _ hwf₁ hleft hv
  obtain ⟨hwf₃, ho₃⟩ := offers_foldl_retain (fun constant => [constant]) constants hwf₂ (by
      intro constant hmem u hu
      exact List.mem_singleton.mp hu ▸ hs.constants constant hmem) hv
  refine ⟨fun choice hmem => hwf₃ choice (List.mem_of_mem_filter hmem), ?_⟩
  refine (offers_filter_types hfalse hwf₃ hv).trans (and_congr_left fun _ => ?_)
  rw [ho₃, ho₂, ho₁, hadmit]
  constructor
  · intro h
    obtain ⟨⟨⟨hfirst, hothers⟩, henums⟩, hconstants⟩ := h
    refine ⟨hfirst, fun other hother => ?_, henums, fun constant hmem => ?_⟩
    · obtain ⟨u, hu, hsame⟩ := hothers other hother
      obtain ⟨choice, hmem, rfl⟩ := List.mem_map.mp hu
      exact ⟨choice, hmem, hsame⟩
    · obtain ⟨u, hu, hsame⟩ := hconstants constant hmem
      exact List.mem_singleton.mp hu ▸ hsame
  · intro h
    obtain ⟨hfirst, h⟩ := h
    refine ⟨⟨⟨hfirst, fun other hother => ?_⟩, h.enumerations⟩, fun constant hmem => ?_⟩
    · obtain ⟨choice, hmem, hsame⟩ := h.constantChoices other hother
      exact ⟨choice.value, List.mem_map.mpr ⟨choice, hmem, rfl⟩, hsame⟩
    · exact ⟨constant, List.mem_singleton_self _, h.constants constant hmem⟩

end Narrowing

/-! ## Controls -/

theorem scalarChoices_none {applicable : List LocatedSchema} {kind : Option ProjectedKind}
    (h : scalarChoices applicable kind = .ok none) : branchApplicators applicable "enum" = [] ∧
      constantAssertions applicable = [] ∧ recognizedConstantChoices applicable = [] := by
  unfold scalarChoices at h
  dsimp only at h
  split at h
  · rename_i hnone
    simp only [Bool.and_eq_true, Bool.not_eq_true', Bool.or_eq_false_iff, Bool.not_eq_false',
      List.isEmpty_iff] at hnone
    exact ⟨hnone.1.1.1, hnone.1.1.2, hnone.1.2⟩
  · split at h
    · cases h
    · split at h
      · cases h
      · split at h
        · cases h
        · split at h
          · split at h <;> cases h
          · cases h

theorem mem_orderedChoices {constantChoices : List RecognizedConstantChoice}
    {values : List CompiledChoice} {choice : CompiledChoice} :
    choice ∈ orderedChoices constantChoices values ↔ choice ∈ values.foldl addUnique [] := by
  unfold orderedChoices
  dsimp only
  split
  · exact List.mem_mergeSort
  · exact Iff.rfl

/-- The options are the narrowed ones, each once and in an order of their own. -/
theorem scalarChoices_some {applicable : List LocatedSchema} {kind : Option ProjectedKind}
    {choices : AnnotatedChoices} (h : scalarChoices applicable kind = .ok (some choices)) :
    ((recognizedConstantChoices applicable ≠ [] ∨
        (branchApplicators applicable "enum").map Prod.snd ≠ [] ∨
        (constantAssertions applicable).map Prod.snd ≠ []) ∨
      (recognizedConstantChoices applicable = [] ∧ branchApplicators applicable "enum" = [] ∧
        constantAssertions applicable = [] ∧ kind = some .null)) ∧
    ∀ choice, choice ∈ choices.values ↔ choice ∈ (narrowedChoices applicable
      (recognizedConstantChoices applicable) ((branchApplicators applicable "enum").map Prod.snd)
      ((constantAssertions applicable).map Prod.snd)).foldl addUnique [] := by
  unfold scalarChoices at h
  dsimp only at h
  split at h
  · cases h
  · rename_i hsource
    constructor
    · by_cases hr : recognizedConstantChoices applicable = []
      · by_cases he : branchApplicators applicable "enum" = []
        · by_cases hc : constantAssertions applicable = []
          · refine .inr ⟨hr, he, hc, ?_⟩
            rw [hr, he, hc] at hsource
            simpa using hsource
          · exact .inl (.inr (.inr (by simpa using hc)))
        · exact .inl (.inr (.inl (by simpa using he)))
      · exact .inl (.inl hr)
    · intro choice
      split at h
      · cases h
      · split at h
        · cases h
        · split at h
          · cases h
          · split at h
            · split at h <;> cases h
            · obtain rfl := Option.some.inj (Except.ok.inj h)
              exact mem_orderedChoices

theorem sameJson_null {value : Value} : SameJson value .null ↔ value = .null := by
  constructor
  · intro h
    cases h
    rfl
  · intro h
    exact h ▸ .null

/-- A control with options holds what they offer. -/
theorem choices_compatible {choices : List CompiledChoice} (hc : ChoicesWF choices)
    {control : ControlDefinition}
    (hkind : control.kind = .choice ∨ control.kind = .constant ∨ control.kind = .null)
    (hchoices : control.choices = choices.map (·.value))
    (hnull : control.acceptsNull = choices.any (·.value.isNull)) {value : Value}
    (hv : value.WF) : controlValueIsCompatible control value = true ↔ Offers choices value := by
  by_cases hn : value = .null
  · subst hn
    show control.acceptsNull = true ↔ _
    rw [hnull, List.any_eq_true]
    refine exists_congr fun choice => and_congr_right fun _ => ?_
    rw [sameJson_null]
    cases choice.value <;> simp [Value.isNull]
  · have hisNull : value.isNull = false := by
      cases value <;> first | rfl | exact absurd rfl hn
    have hany : controlValueIsCompatible control value =
        control.choices.any (jsonValuesEqual · value) := by
      unfold controlValueIsCompatible
      rw [hisNull]
      rcases hkind with hkind | hkind | hkind <;> rw [hkind] <;> rfl
    rw [hany, hchoices, List.any_map, List.any_eq_true]
    refine exists_congr fun choice => and_congr_right fun hmem => ?_
    exact jsonValuesEqual_iff_same (hc choice hmem) hv

theorem annotatedChoices_controlKind (choices : AnnotatedChoices) :
    choices.controlKind = .choice ∨ choices.controlKind = .constant ∨
      choices.controlKind = .null := by
  unfold AnnotatedChoices.controlKind
  split
  · exact .inr (.inr rfl)
  · split
    · exact .inl rfl
    · exact .inr (.inl rfl)

/-- The control of a projection at its place in a form. -/
def ScalarProjection.place (projection : ScalarProjection) (control : ControlDefinition) :
    ControlDefinition :=
  { control with
    kind := projection.kind
    choices := projection.choices.map (·.value)
    acceptsNull := projection.acceptsNull }

section Compatibility

variable {applicable : List LocatedSchema} (hwf : ∀ located ∈ applicable, located.schema.WF)
  (hfalse : ∀ located ∈ applicable, located.schema ≠ .bool false)

include hwf hfalse

theorem scalarChoices_offers {choices : AnnotatedChoices}
    (h : scalarChoices applicable (inferKind applicable) = .ok (some choices)) {value : Value}
    (hv : value.WF) : ChoicesWF choices.values ∧ (Offers choices.values value ↔
      ∀ located ∈ applicable, Asserts located.schema value) := by
  obtain ⟨hsource, hmem⟩ := scalarChoices_some h
  have hnil : ChoicesWF [] := fun c hc => absurd hc List.not_mem_nil
  have hs := sources_wf hwf
  have hoffers : ∀ narrowed : List CompiledChoice, ChoicesWF narrowed →
      (∀ choice, choice ∈ choices.values ↔ choice ∈ narrowed.foldl addUnique []) →
      (Offers choices.values value ↔ Offers narrowed value) := by
    intro narrowed hn hm
    have hfold := offers_foldl_addUnique hn hnil hv
    have hempty : ¬ Offers [] value := fun ho => by
      obtain ⟨c, hc, -⟩ := ho
      exact absurd hc List.not_mem_nil
    rw [or_iff_right hempty] at hfold
    rw [← hfold]
    exact exists_congr fun choice => and_congr_left fun _ => hm choice
  rw [asserts_iff_sources hwf hv]
  rcases hsource with hsource | ⟨hr, he, hc, hkind⟩
  · obtain ⟨hn, hiff⟩ := narrowedChoices_offers hfalse hs hsource hv
    refine ⟨fun choice hchoice => ?_, ?_⟩
    · exact addUnique_wf hn hnil choice ((hmem choice).mp hchoice)
    · rw [hoffers _ hn hmem, hiff, and_comm]
  · -- null is the only kind and no option narrows it
    rw [hr, he, hc] at hmem
    have hnull : ChoicesWF [CompiledChoice.unannotated .null] := by
      intro choice hchoice
      rw [List.mem_singleton.mp hchoice]
      decide
    have hnarrow : narrowedChoices applicable [] [] [] =
        [CompiledChoice.unannotated .null].filter fun candidate => applicable.all fun located =>
          located.schema != .bool false &&
            (located.schema.get "type").all (valueMatchesTypeDeclaration candidate.value) := rfl
    have hn : ChoicesWF (narrowedChoices applicable [] [] []) := by
      intro choice hchoice
      rw [hnarrow] at hchoice
      exact hnull choice (List.mem_of_mem_filter hchoice)
    refine ⟨fun choice hchoice => ?_, ?_⟩
    · exact addUnique_wf hn hnil choice ((hmem choice).mp hchoice)
    · rw [hoffers _ hn hmem, hr, he, hc, hnarrow]
      refine (offers_filter_types hfalse hnull hv).trans ?_
      obtain ⟨admitted, hadmitted, hcases⟩ := inferKind_spec hkind
      have honly : admitted = {.null} := by
        rcases hcases with ⟨-, ha⟩ | ⟨hk, -⟩ | ⟨hk, -⟩
        · exact ha
        · cases hk
        · exact absurd rfl hk
      have hspec := admittedKinds_spec hadmitted value
      rw [honly, Finset.mem_singleton, kindOf_eq_null] at hspec
      have htypes : (∀ declared ∈ typeDeclarations applicable, TypeHolds declared value) →
          value = .null := fun ht =>
        hspec.mpr fun declared hd => (typeHolds_iff hv declared).mpr (ht declared hd)
      constructor
      · intro ho
        exact ⟨ho.2, ⟨fun _ hm => absurd hm List.not_mem_nil,
          fun _ hm => absurd hm List.not_mem_nil, fun _ hm => absurd hm List.not_mem_nil⟩⟩
      · intro ho
        refine ⟨⟨_, List.mem_singleton_self _, ?_⟩, ho.1⟩
        rw [htypes ho.1]
        exact .null

/-- A compiled scalar control holds a value exactly when every `type`, `enum`, `const` and
constant choice of its schemas holds of it. -/
theorem control_compatible_iff_asserts {projection : ScalarProjection}
    (hp : projectScalar applicable = some projection) (control : ControlDefinition)
    {value : Value} (hv : value.WF) :
    controlValueIsCompatible (projection.place control) value = true ↔
      ∀ located ∈ applicable, Asserts located.schema value := by
  unfold projectScalar at hp
  split at hp
  · cases hp
  · rename_i choices hchoices
    obtain rfl := Option.some.inj hp
    obtain ⟨hc, hoffers⟩ := scalarChoices_offers hwf hfalse hchoices hv
    rw [← hoffers]
    exact choices_compatible hc (annotatedChoices_controlKind choices) rfl rfl hv
  · rename_i hchoices
    obtain ⟨controlKind, hkind, rfl⟩ := Option.map_eq_some_iff.mp hp
    obtain ⟨kind, hinfer, hk⟩ := Option.bind_eq_some_iff.mp hkind
    obtain ⟨he, hc, hr⟩ := scalarChoices_none hchoices
    rw [asserts_iff_sources hwf hv, controlKind_compatible hinfer hk rfl rfl value, hr, he, hc]
    constructor
    · intro h
      refine ⟨fun declared hd => (typeHolds_iff hv declared).mp (h declared hd),
        fun _ hm => absurd hm List.not_mem_nil, fun _ hm => absurd hm List.not_mem_nil,
        fun _ hm => absurd hm List.not_mem_nil⟩
    · intro h declared hd
      exact (typeHolds_iff hv declared).mpr (h.1 declared hd)

end Compatibility

namespace ScalarSample

def enumeration : LocatedSchema :=
  ⟨.object [("enum", .array [.number "2.5", .number "1.0"])], "schema.json", []⟩

def integral : LocatedSchema :=
  ⟨.object [("type", .string "integer")], "schema.json", ["allOf", "0"]⟩

def quantity : ControlDefinition := ⟨["a"], some [], .string, [], false, {}, none, true⟩

def onlyOne : ScalarProjection := ⟨.choice, [.unannotated (.number "1.0")], false⟩

end ScalarSample

open ScalarSample in
theorem control_compatible_iff_asserts_integral :
    controlValueIsCompatible (onlyOne.place quantity) (.number "1") = true ↔
      ∀ located ∈ [enumeration, integral], Asserts located.schema (.number "1") :=
  control_compatible_iff_asserts (by decide) (by decide) (by decide +kernel) quantity (by decide)

end Schemaform.Engine
