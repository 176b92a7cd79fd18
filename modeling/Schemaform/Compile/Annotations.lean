import Schemaform.Compile.Scalar
import Schemaform.Json.Fingerprint

/-!
# Compile.Annotations

What the schemas that apply at one place declare beside their assertions.

* `valueAnnotations`: the values of one keyword, the first of each kind of equal ones, in the order
  of their fingerprints under a digest.
* `dataSchemaAnnotations`.
* `defaults_eq_singleton`: one default is kept where all that are declared are equal.
-/

namespace Schemaform.Engine

variable (digest : List UInt8 → Nat)

def semanticJsonFingerprint (value : Value) : Nat := digest (hashJsonValue value)

def pushUniqueValue (values : List Value) (value : Value) : List Value :=
  if values.any (jsonValuesEqual · value) then values else values ++ [value]

def sortAnnotationValues (values : List Value) : List Value :=
  values.mergeSort fun a b =>
    decide (semanticJsonFingerprint digest a ≤ semanticJsonFingerprint digest b)

def valueAnnotations (applicable : List LocatedSchema) (keyword : String) : List Value :=
  sortAnnotationValues digest
    ((applicable.filterMap fun located => located.schema.get keyword).foldl pushUniqueValue [])

def dataSchemaAnnotations (applicable : List LocatedSchema) : DataSchemaAnnotations where
  readOnly := applicable.any fun located => located.schema.get "readOnly" == some (.bool true)
  writeOnly := applicable.any fun located => located.schema.get "writeOnly" == some (.bool true)
  defaults := valueAnnotations digest applicable "default"

/-! ## The values kept -/

theorem pushUniqueValue_extends (values : List Value) (value : Value) :
    values <+: pushUniqueValue values value := by
  unfold pushUniqueValue
  split
  · exact List.prefix_rfl
  · exact List.prefix_append _ _

theorem foldl_pushUniqueValue_extends (values kept : List Value) :
    kept <+: values.foldl pushUniqueValue kept := by
  induction values generalizing kept with
  | nil => exact List.prefix_rfl
  | cons v vs ih => exact (pushUniqueValue_extends kept v).trans (ih _)

theorem foldl_pushUniqueValue_eq_self {values kept : List Value} :
    values.foldl pushUniqueValue kept = kept ↔
      ∀ v ∈ values, kept.any (jsonValuesEqual · v) = true := by
  induction values with
  | nil => simp
  | cons v vs ih =>
    rw [List.foldl_cons, List.forall_mem_cons]
    by_cases hv : kept.any (jsonValuesEqual · v) = true
    · rw [pushUniqueValue, if_pos hv, ih]
      exact ⟨fun h => ⟨hv, h⟩, fun h => h.2⟩
    · refine iff_of_false (fun heq => ?_) fun h => hv h.1
      have hlength := (foldl_pushUniqueValue_extends vs (pushUniqueValue kept v)).length_le
      rw [heq, pushUniqueValue, if_neg hv, List.length_append, List.length_singleton] at hlength
      omega

theorem mem_foldl_pushUniqueValue {values kept : List Value} {v : Value}
    (h : v ∈ values.foldl pushUniqueValue kept) : v ∈ kept ∨ v ∈ values := by
  induction values generalizing kept with
  | nil => exact .inl h
  | cons w ws ih =>
    rcases ih h with h | h
    · unfold pushUniqueValue at h
      split at h
      · exact .inl h
      · rcases List.mem_append.mp h with h | h
        · exact .inl h
        · obtain rfl := List.mem_singleton.mp h
          exact .inr List.mem_cons_self
    · exact .inr (List.mem_cons_of_mem _ h)

/-! ## Defaults -/

def declaredDefaults (applicable : List LocatedSchema) : List Value :=
  applicable.filterMap fun located => located.schema.get "default"

/-- Some default is declared, and all that are declared are equal to it. -/
def OneDefault (applicable : List LocatedSchema) (default : Value) : Prop :=
  ∃ others, declaredDefaults applicable = default :: others ∧
    ∀ other ∈ others, jsonValuesEqual default other = true

variable {applicable : List LocatedSchema}

theorem defaults_perm : (dataSchemaAnnotations digest applicable).defaults.Perm
    ((declaredDefaults applicable).foldl pushUniqueValue []) := List.mergeSort_perm _ _

theorem defaults_eq_singleton {default : Value} :
    (dataSchemaAnnotations digest applicable).defaults = [default] ↔
      OneDefault applicable default := by
  have hperm : (dataSchemaAnnotations digest applicable).defaults.Perm
      ((declaredDefaults applicable).foldl pushUniqueValue []) := defaults_perm digest
  have hkept : (dataSchemaAnnotations digest applicable).defaults = [default] ↔
      (declaredDefaults applicable).foldl pushUniqueValue [] = [default] := by
    constructor
    · intro h
      exact (List.singleton_perm.mp (h ▸ hperm)).symm
    · intro h
      exact List.perm_singleton.mp (h ▸ hperm)
  rw [hkept, OneDefault]
  cases declaredDefaults applicable with
  | nil => simp
  | cons first others =>
    have hfirst : pushUniqueValue [] first = [first] := rfl
    rw [List.foldl_cons, hfirst]
    constructor
    · intro h
      have hextends := foldl_pushUniqueValue_extends others [first]
      rw [h] at hextends
      obtain rfl := List.mem_singleton.mp (hextends.subset List.mem_cons_self)
      refine ⟨others, rfl, fun other ho => ?_⟩
      simpa using foldl_pushUniqueValue_eq_self.mp h other ho
    · rintro ⟨rest, hrest, hequal⟩
      obtain ⟨rfl, rfl⟩ := List.cons.inj hrest
      exact foldl_pushUniqueValue_eq_self.mpr fun other ho => by simpa using hequal other ho

theorem defaults_wf (h : ∀ located ∈ applicable, located.schema.WF) :
    ∀ v ∈ (dataSchemaAnnotations digest applicable).defaults, v.WF := by
  intro v hv
  rcases mem_foldl_pushUniqueValue ((defaults_perm digest).subset hv) with hv | hv
  · cases hv
  · obtain ⟨located, hl, hget⟩ := List.mem_filterMap.mp hv
    exact Value.get_wf (h located hl) hget

/-- Annotations read from the schemas that apply at a place. -/
def Annotated (annotations : DataSchemaAnnotations) : Prop :=
  ∃ applicable : List LocatedSchema, (∀ located ∈ applicable, located.schema.WF) ∧
    annotations = dataSchemaAnnotations digest applicable

variable {digest}

theorem Annotated.defaults_wf {annotations : DataSchemaAnnotations}
    (h : Annotated digest annotations) : ∀ v ∈ annotations.defaults, v.WF := by
  obtain ⟨applicable, hwf, rfl⟩ := h
  exact Engine.defaults_wf digest hwf

end Schemaform.Engine
