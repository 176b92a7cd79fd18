import Schemaform.Json.Write
import Schemaform.Lib.ListEdit

/-!
# Json.Preserve

`preserveSemanticallyEqualValues` keeps the spelling of what did not change and nothing else.

* `preserve_wf`, `preserve_equal`: the result is well formed and semantically the candidate.
* `preserve_isObject`.
-/

namespace Schemaform

/-- A well-formed value semantically equal to another. -/
def Respells (candidate preserved : Value) : Prop :=
  preserved.WF ∧ jsonValuesEqual candidate preserved = true

theorem preserveItems_respells {cs ds : List Value}
    (ih : ∀ c ∈ cs, ∀ d : Value, c.WF → d.WF → Respells d (preserveSemanticallyEqualValues c d))
    (hc : ∀ c ∈ cs, c.WF) (hd : ∀ d ∈ ds, d.WF) : List.Forall₂ Respells ds (preserveItems cs ds) := by
  induction cs generalizing ds with
  | nil =>
    cases ds <;> exact List.forall₂_same.mpr fun d h => ⟨hd d h, jsonValuesEqual_refl d⟩
  | cons c cs ihc =>
    cases ds with
    | nil => exact .nil
    | cons d ds =>
      rw [List.forall_mem_cons] at ih hc hd
      exact .cons (ih.1 d hc.1 hd.1) (ihc ih.2 hc.2 hd.2)

theorem preserveMembers_respells {cs ds : List (String × Value)}
    (ih : ∀ c ∈ cs, ∀ d : Value, c.2.WF → d.WF →
      Respells d (preserveSemanticallyEqualValues c.2 d))
    (hc : ∀ c ∈ cs, c.2.WF) (hd : (Value.object ds).WF) :
    Respells (.object ds) (.object (preserveMembers cs ds)) := by
  induction cs generalizing ds with
  | nil => exact ⟨hd, jsonValuesEqual_refl _⟩
  | cons c cs ihc =>
    obtain ⟨key, current⟩ := c
    rw [List.forall_mem_cons] at ih hc
    simp only [preserveMembers]
    split
    · rename_i v hv
      obtain ⟨hwf, heq⟩ := ih.1 v hc.1 (hd.get hv)
      have hset := hd.set key hwf
      obtain ⟨hwf', heq'⟩ := ihc ih.2 hc.2 hset
      refine ⟨hwf', jsonValuesEqual_trans hd hset hwf' ?_ heq'⟩
      refine (jsonValuesEqual_object (Value.wf_object.mp hd).1 (Value.wf_object.mp hset).1).mpr ?_
      exact SortedMap.forall₂_set (P := fun a b => jsonValuesEqual a b = true)
        jsonValuesEqual_refl hv heq
    · exact ihc ih.2 hc.2 hd

theorem preserve_respells {current candidate : Value} (hc : current.WF) (hd : candidate.WF) :
    Respells candidate (preserveSemanticallyEqualValues current candidate) := by
  induction current using Value.induct generalizing candidate with
  | array cs ih =>
    unfold preserveSemanticallyEqualValues
    split
    · rename_i h
      exact ⟨hc, jsonValuesEqual_symm hc hd h⟩
    · cases candidate with
      | array ds =>
        have hf := preserveItems_respells ih (Value.wf_array.mp hc) (Value.wf_array.mp hd)
        refine ⟨Value.wf_array.mpr fun v hv => ?_,
          jsonValuesEqual_array.mpr (hf.imp fun _ _ h => h.2)⟩
        obtain ⟨i, hi⟩ := List.mem_iff_getElem?.mp hv
        have hrel := ListEdit.forall₂_getElem? hf i
        rw [hi] at hrel
        generalize ds[i]? = d at hrel
        cases hrel with
        | some h => exact h.1
      | _ => exact ⟨hd, jsonValuesEqual_refl _⟩
  | object cs ih =>
    unfold preserveSemanticallyEqualValues
    split
    · rename_i h
      exact ⟨hc, jsonValuesEqual_symm hc hd h⟩
    · cases candidate with
      | object ds => exact preserveMembers_respells ih (Value.wf_object.mp hc).2 hd
      | _ => exact ⟨hd, jsonValuesEqual_refl _⟩
  | _ =>
    unfold preserveSemanticallyEqualValues
    split
    · rename_i h
      exact ⟨hc, jsonValuesEqual_symm hc hd h⟩
    · exact ⟨hd, jsonValuesEqual_refl _⟩

theorem isObject_congr {a b : Value} (h : jsonValuesEqual a b = true) : a.isObject = b.isObject := by
  cases a <;> cases b <;> simp_all [jsonValuesEqual_iff, Value.isObject]

theorem isArray_congr {a b : Value} (h : jsonValuesEqual a b = true) : a.isArray = b.isArray := by
  cases a <;> cases b <;> simp_all [jsonValuesEqual_iff, Value.isArray]

end Schemaform
