import Schemaform.Compile.Scalar
import Schemaform.Json.Number

/-!
# Compile.Assertions

What the keywords that decide a scalar control assert of a value, and that the checks of single
keywords decide it.

* `HasType`, `TypeHolds`: the types of JSON; `integer` is a matter of the number, not its spelling.
* `KeywordsHold`: `type`, `enum` and `const` of one schema.
* `Asserts`: these with every `anyOf` and `oneOf` that lists constants.
* `typeHolds_iff`, `constantBranch_holds`: the checks of the projection decide them.
-/

namespace Schemaform

/-! ## Same values -/

theorem sameJson_symm {a b : Value} (ha : a.WF) (hb : b.WF) (h : SameJson a b) : SameJson b a :=
  (jsonValuesEqual_iff_same hb ha).mp
    (jsonValuesEqual_symm ha hb ((jsonValuesEqual_iff_same ha hb).mpr h))

theorem sameJson_trans {a b c : Value} (ha : a.WF) (hb : b.WF) (hc : c.WF) (hab : SameJson a b)
    (hbc : SameJson b c) : SameJson a c := by
  have hab := (jsonValuesEqual_iff_same ha hb).mpr hab
  have hbc := (jsonValuesEqual_iff_same hb hc).mpr hbc
  exact (jsonValuesEqual_iff_same ha hc).mp (jsonValuesEqual_trans ha hb hc hab hbc)

namespace Engine

/-! ## Assertions -/

inductive HasType : String → Value → Prop where
  | null : HasType "null" .null
  | boolean (b : Bool) : HasType "boolean" (.bool b)
  | string (s : String) : HasType "string" (.string s)
  | number (literal : String) : HasType "number" (.number literal)
  | integer {literal : String} {z : Int} (denotes : Denotes literal z) :
      HasType "integer" (.number literal)
  | array (items : List Value) : HasType "array" (.array items)
  | object (members : List (String × Value)) : HasType "object" (.object members)

inductive TypeHolds : Value → Value → Prop where
  | one {kind : String} {value : Value} (holds : HasType kind value) :
      TypeHolds (.string kind) value
  | any {kinds : List Value} {kind : String} {value : Value} (mem : .string kind ∈ kinds)
      (holds : HasType kind value) : TypeHolds (.array kinds) value

structure KeywordsHold (schema value : Value) : Prop where
  type : ∀ declared, schema.get "type" = some declared → TypeHolds declared value
  enum : ∀ allowed, schema.get "enum" = some (.array allowed) → ∃ u ∈ allowed, SameJson u value
  const : ∀ constant, schema.get "const" = some constant → SameJson constant value

structure Asserts (schema value : Value) : Prop where
  keywords : KeywordsHold schema value
  anyOf : ∀ branches choices, schema.get "anyOf" = some (.array branches) →
    recognizeConstantChoice "anyOf" branches = .ok choices →
    ∃ branch ∈ branches, KeywordsHold branch value
  oneOf : ∀ branches choices, schema.get "oneOf" = some (.array branches) →
    recognizeConstantChoice "oneOf" branches = .ok choices →
    ∃! index : Nat, ∃ branch, branches[index]? = some branch ∧ KeywordsHold branch value

/-! ## Types -/

theorem isInteger_iff {literal : String} (h : (Value.number literal).WF) :
    numberIsInteger literal = true ↔ ∃ z : Int, Denotes literal z := by
  obtain ⟨q, hq⟩ := exists_denotes h
  rw [numberIsInteger_iff hq]
  constructor
  · intro hz
    obtain ⟨z, rfl⟩ := hz
    exact ⟨z, hq⟩
  · intro hz
    obtain ⟨z, hz⟩ := hz
    exact ⟨z, hq.unique hz⟩

theorem hasType_iff {value : Value} (h : value.WF) (kind : String) :
    valueMatchesType value kind = true ↔ HasType kind value := by
  constructor
  · intro hm
    unfold valueMatchesType at hm
    split at hm
    · cases value with
      | string s => exact .string s
      | _ => cases hm
    · cases value with
      | number literal => exact .number literal
      | _ => cases hm
    · cases value with
      | number literal =>
        obtain ⟨z, hz⟩ := (isInteger_iff h).mp hm
        exact .integer hz
      | _ => cases hm
    · cases value with
      | bool b => exact .boolean b
      | _ => cases hm
    · cases value with
      | null => exact .null
      | _ => cases hm
    · cases value with
      | object members => exact .object members
      | _ => cases hm
    · cases value with
      | array items => exact .array items
      | _ => cases hm
    · cases hm
  · intro ht
    cases ht with
    | integer hz => exact (isInteger_iff h).mpr ⟨_, hz⟩
    | _ => rfl

theorem typeHolds_iff {value : Value} (h : value.WF) (declared : Value) :
    valueMatchesTypeDeclaration value declared = true ↔ TypeHolds declared value := by
  constructor
  · intro hm
    cases declared with
    | string kind => exact .one ((hasType_iff h kind).mp hm)
    | array kinds =>
      obtain ⟨kind, hkind, hm⟩ := List.any_eq_true.mp hm
      obtain ⟨name, hname, hs⟩ := List.mem_filterMap.mp hkind
      cases name with
      | string name =>
        obtain rfl := Option.some.inj hs
        exact .any hname ((hasType_iff h _).mp hm)
      | _ => cases hs
    | _ => cases hm
  · intro ht
    cases ht with
    | one ht => exact (hasType_iff h _).mpr ht
    | any hmem ht =>
      exact List.any_eq_true.mpr ⟨_, List.mem_filterMap.mpr ⟨_, hmem, rfl⟩,
        (hasType_iff h _).mpr ht⟩

theorem hasType_same {kind : String} {a b : Value} (h : SameJson a b) (ht : HasType kind a) :
    HasType kind b := by
  cases h with
  | number hl hr =>
    cases ht with
    | number literal => exact .number _
    | integer hz => exact .integer (hl.unique hz ▸ hr)
  | array _ _ => cases ht; exact .array _
  | object _ _ => cases ht; exact .object _
  | _ => exact ht

theorem typeHolds_same {declared a b : Value} (h : SameJson a b) (ht : TypeHolds declared a) :
    TypeHolds declared b := by
  cases ht with
  | one ht => exact .one (hasType_same h ht)
  | any hmem ht => exact .any hmem (hasType_same h ht)

/-! ## Constant branches -/

theorem constantBranch_ok {branch : Value} {constant : ConstantBranch}
    (h : constantBranch branch = .ok constant) :
    branch.get "const" = some constant.constant ∧ branch.get "enum" = none ∧
      constant.satisfiesType =
        (branch.get "type").all (valueMatchesTypeDeclaration constant.constant) := by
  cases branch with
  | object members =>
    unfold constantBranch at h
    dsimp only at h
    cases hconst : SortedMap.get "const" members with
    | none =>
      rw [hconst] at h
      cases h
    | some value =>
      rw [hconst] at h
      dsimp only at h
      by_cases hstructured : (value.isArray || value.isObject) = true
      · rw [if_pos hstructured] at h
        cases h
      · rw [if_neg hstructured] at h
        split at h
        · cases h
        · rename_i hmore
          obtain rfl := Except.ok.inj h
          refine ⟨hconst, ?_, rfl⟩
          -- `enum` is a keyword that a recognized branch may not carry
          cases henum : SortedMap.get "enum" members with
          | none => exact henum
          | some allowed =>
            refine absurd (List.any_eq_true.mpr ⟨_, SortedMap.mem_of_get henum, ?_⟩) hmore
            show (!constantBranchKeywords.contains "enum" && draft202012Keywords.contains "enum") =
              true
            decide
  | bool b => cases h
  | _ => cases h

theorem constantBranch_holds {branch value : Value} {constant : ConstantBranch}
    (hb : branch.WF) (hv : value.WF) (h : constantBranch branch = .ok constant) :
    KeywordsHold branch value ↔
      constant.satisfiesType = true ∧ SameJson constant.constant value := by
  obtain ⟨hconst, henum, htype⟩ := constantBranch_ok h
  have hwf := Value.get_wf hb hconst
  constructor
  · intro hk
    have hsame := hk.const _ hconst
    refine ⟨?_, hsame⟩
    rw [htype]
    cases hd : branch.get "type" with
    | none => rfl
    | some declared =>
      have hback := sameJson_symm hwf hv hsame
      exact (typeHolds_iff hwf declared).mpr (typeHolds_same hback (hk.type declared hd))
  · intro hs
    obtain ⟨hsat, hsame⟩ := hs
    rw [htype] at hsat
    refine ⟨fun declared hd => ?_, fun allowed ha => ?_, fun other ho => ?_⟩
    · rw [hd] at hsat
      exact typeHolds_same hsame ((typeHolds_iff hwf declared).mp hsat)
    · rw [henum] at ha
      cases ha
    · obtain rfl := Option.some.inj (hconst.symm.trans ho)
      exact hsame

end Engine

end Schemaform
