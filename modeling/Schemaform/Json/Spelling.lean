import Schemaform.Json.Outline
import Schemaform.Json.Preserve

/-!
# Json.Spelling

What keeping the spelling of the current value does at every place of a candidate.

* `Step`, `Value.step`, `Value.follow`: places by the keys of objects and the indices of arrays.
* `step_preserve`, `follow_preserve`: what stands at a place afterwards is what stood there,
  preserved against what stands there in the current value.
* `preserve_idem`, `PreservesSpelling`, `preserve_spelling`.
-/

namespace Schemaform

/-! ## Places -/

inductive Step where
  | key (key : String)
  | index (index : Nat)
deriving DecidableEq

namespace Value

def step : Step → Value → Option Value
  | .key key, .object members => SortedMap.get key members
  | .index index, .array items => items[index]?
  | _, _ => none

def follow : List Step → Value → Option Value
  | [], v => some v
  | step :: path, v => (v.step step).bind (follow path)

theorem WF.step {v c : Value} {step : Step} (hv : v.WF) (h : v.step step = some c) : c.WF := by
  cases v with
  | object members =>
    cases step with
    | key key => exact hv.get h
    | index index => cases h
  | array items =>
    cases step with
    | key key => cases h
    | index index => exact wf_array.mp hv c (List.mem_of_getElem? h)
  | _ => cases step <;> cases h

/-- Semantically equal values have the same steps, to semantically equal values. -/
theorem step_congr {a b : Value} (ha : a.WF) (hb : b.WF) (h : jsonValuesEqual a b = true)
    (step : Step) : SameValue (a.step step) (b.step step) := by
  cases a with
  | array l =>
    obtain ⟨r, rfl⟩ := jsonValuesEqual_array_left h
    cases step with
    | key key => exact .none
    | index index => exact ListEdit.forall₂_getElem? (jsonValuesEqual_array.mp h) index
  | object l =>
    obtain ⟨r, rfl⟩ := jsonValuesEqual_object_left h
    cases step with
    | key key => exact child_congr ha hb h key
    | index index => exact .none
  | number l =>
    obtain ⟨r, rfl⟩ := jsonValuesEqual_number_left h
    cases step <;> exact .none
  | _ =>
    cases b with
    | array r => simp [jsonValuesEqual_iff] at h
    | object r => simp [jsonValuesEqual_iff] at h
    | _ => cases step <;> exact .none

theorem follow_congr {a b : Value} (ha : a.WF) (hb : b.WF) (h : jsonValuesEqual a b = true)
    (path : List Step) : SameValue (follow path a) (follow path b) := by
  induction path generalizing a b with
  | nil => exact .some h
  | cons step path ih =>
    have hstep := step_congr ha hb h step
    rw [follow, follow]
    cases hca : a.step step with
    | none =>
      rw [hca] at hstep
      cases hcb : b.step step with
      | none => exact .none
      | some d =>
        rw [hcb] at hstep
        cases hstep
    | some c =>
      rw [hca] at hstep
      cases hcb : b.step step with
      | none =>
        rw [hcb] at hstep
        cases hstep
      | some d =>
        rw [hcb] at hstep
        cases hstep with
        | some hcd => exact ih (ha.step hca) (hb.step hcb) hcd

end Value

/-! ## One step -/

/-- What stood at a place, preserved against what stands there in the current value, if anything
does. -/
def preservedAt (current : Option Value) (candidate : Value) : Value :=
  (current.map fun c => preserveSemanticallyEqualValues c candidate).getD candidate

theorem map_preservedAt_none (v : Option Value) : v.map (preservedAt none) = v := by
  cases v <;> rfl

theorem getElem?_preserveItems (cs ds : List Value) (i : Nat) :
    (preserveItems cs ds)[i]? = ds[i]?.map (preservedAt cs[i]?) := by
  induction cs generalizing ds i with
  | nil =>
    cases ds with
    | nil => rfl
    | cons d ds =>
      simp only [preserveItems]
      exact (map_preservedAt_none _).symm
  | cons c cs ih =>
    cases ds with
    | nil => rfl
    | cons d ds =>
      rw [preserveItems]
      cases i with
      | zero => rfl
      | succ i => exact ih ds i

theorem get_preserveMembers {cs : List (String × Value)} (hsorted : SortedMap.Sorted cs)
    (ds : List (String × Value)) (key : String) :
    SortedMap.get key (preserveMembers cs ds) =
      (SortedMap.get key ds).map (preservedAt (SortedMap.get key cs)) := by
  induction cs generalizing ds with
  | nil =>
    rw [preserveMembers]
    exact (map_preservedAt_none _).symm
  | cons e cs ih =>
    obtain ⟨name, c⟩ := e
    have hfresh : SortedMap.get name cs = none :=
      SortedMap.get_eq_none_iff.mpr fun e he => (ne_of_lt (List.rel_of_pairwise_cons hsorted he)).symm
    rw [preserveMembers, ih hsorted.tail, SortedMap.get_cons]
    cases hd : SortedMap.get name ds with
    | none =>
      dsimp only
      by_cases hname : name = key
      · rw [← hname, hd]
        rfl
      · rw [if_neg hname]
    | some d =>
      dsimp only
      by_cases hname : name = key
      · rw [← hname, if_pos rfl, hfresh, hd, SortedMap.get_set_self _ (by rw [hd]; rfl)]
        rfl
      · rw [if_neg hname, SortedMap.get_set_ne hname]

theorem preserve_array {cs ds : List Value}
    (hne : jsonValuesEqual (.array cs) (.array ds) = false) :
    preserveSemanticallyEqualValues (.array cs) (.array ds) = .array (preserveItems cs ds) := by
  rw [preserveSemanticallyEqualValues, if_neg (by simp [hne])]

theorem preserve_object {cs ds : List (String × Value)}
    (hne : jsonValuesEqual (.object cs) (.object ds) = false) :
    preserveSemanticallyEqualValues (.object cs) (.object ds) = .object (preserveMembers cs ds) := by
  rw [preserveSemanticallyEqualValues, if_neg (by simp [hne])]

/-- Values of different kinds have nothing to preserve. -/
theorem preserve_other {current candidate : Value}
    (hne : jsonValuesEqual current candidate = false)
    (harray : ¬ (current.isArray = true ∧ candidate.isArray = true))
    (hobject : ¬ (current.isObject = true ∧ candidate.isObject = true)) :
    preserveSemanticallyEqualValues current candidate = candidate := by
  have hnot : ¬ jsonValuesEqual current candidate = true := by simp [hne]
  cases current with
  | array cs =>
    unfold preserveSemanticallyEqualValues
    rw [if_neg hnot]
    cases candidate with
    | array ds => exact absurd ⟨rfl, rfl⟩ harray
    | _ => rfl
  | object cs =>
    unfold preserveSemanticallyEqualValues
    rw [if_neg hnot]
    cases candidate with
    | object ds => exact absurd ⟨rfl, rfl⟩ hobject
    | _ => rfl
  | _ =>
    unfold preserveSemanticallyEqualValues
    rw [if_neg hnot]

/-- Below a value that is not semantically equal, place by place. -/
theorem step_preserve {current candidate : Value} (hc : current.WF)
    (hne : jsonValuesEqual current candidate = false) (step : Step) :
    (preserveSemanticallyEqualValues current candidate).step step =
      (candidate.step step).map (preservedAt (current.step step)) := by
  cases current with
  | array cs =>
    cases candidate with
    | array ds =>
      rw [preserve_array hne]
      cases step with
      | key key => rfl
      | index index => exact getElem?_preserveItems cs ds index
    | object ds =>
      rw [preserve_other hne (by simp [Value.isArray]) (by simp [Value.isObject])]
      cases step <;> exact (map_preservedAt_none _).symm
    | _ =>
      rw [preserve_other hne (by simp [Value.isArray]) (by simp [Value.isObject])]
      cases step <;> rfl
  | object cs =>
    cases candidate with
    | object ds =>
      rw [preserve_object hne]
      cases step with
      | key key => exact get_preserveMembers (Value.wf_object.mp hc).1 ds key
      | index index => rfl
    | array ds =>
      rw [preserve_other hne (by simp [Value.isArray]) (by simp [Value.isObject])]
      cases step <;> exact (map_preservedAt_none _).symm
    | _ =>
      rw [preserve_other hne (by simp [Value.isArray]) (by simp [Value.isObject])]
      cases step <;> rfl
  | _ =>
    rw [preserve_other hne (by simp [Value.isArray]) (by simp [Value.isObject])]
    cases step <;> exact (map_preservedAt_none _).symm

/-! ## Everywhere -/

theorem preserve_of_equal {current candidate : Value}
    (h : jsonValuesEqual current candidate = true) :
    preserveSemanticallyEqualValues current candidate = current := by
  cases current <;> (unfold preserveSemanticallyEqualValues; rw [if_pos h])

/-- Preserving and going to a place can be done in either order. -/
theorem follow_preserve {current candidate : Value} (hc : current.WF) (hd : candidate.WF)
    (path : List Step) :
    Value.follow path (preserveSemanticallyEqualValues current candidate) =
      (Value.follow path candidate).map (preservedAt (Value.follow path current)) := by
  induction path generalizing current candidate with
  | nil => rfl
  | cons step path ih =>
    cases hequal : jsonValuesEqual current candidate with
    | true =>
      -- the whole subtree is the current one, and so is what stands at each place in it
      rw [preserve_of_equal hequal]
      have hsame := Value.follow_congr hc hd hequal (step :: path)
      generalize Value.follow (step :: path) current = c at hsame
      generalize Value.follow (step :: path) candidate = d at hsame
      cases hsame with
      | none => rfl
      | some hcd => exact congrArg some (preserve_of_equal hcd).symm
    | false =>
      have hfollow (v : Value) :
          Value.follow (step :: path) v = (v.step step).bind (Value.follow path) := rfl
      rw [hfollow, hfollow, hfollow, step_preserve hc hequal]
      cases hcd : candidate.step step with
      | none => rfl
      | some d =>
        rw [Option.map_some, Option.bind_some, Option.bind_some]
        cases hcc : current.step step with
        | none => exact (map_preservedAt_none _).symm
        | some c => exact ih (hc.step hcc) (hd.step hcd)

/-- A candidate that was not equal still is not. -/
theorem preserve_unequal {current candidate : Value} (hc : current.WF) (hd : candidate.WF)
    (hne : jsonValuesEqual current candidate = false) :
    jsonValuesEqual current (preserveSemanticallyEqualValues current candidate) = false := by
  obtain ⟨hwf, hequal⟩ := preserve_respells hc hd
  rw [Bool.eq_false_iff] at hne ⊢
  exact fun h => hne (jsonValuesEqual_trans hc hwf hd h (jsonValuesEqual_symm hd hwf hequal))

theorem preserveItems_length (cs ds : List Value) :
    (preserveItems cs ds).length = ds.length := by
  induction cs generalizing ds with
  | nil =>
    cases ds with
    | nil => rfl
    | cons d ds => simp only [preserveItems]
  | cons c cs ih =>
    cases ds with
    | nil => rfl
    | cons d ds => rw [preserveItems, List.length_cons, List.length_cons, ih]

/-- A value that is not semantically equal shows the same. -/
theorem outline_preserve {current candidate : Value}
    (hne : jsonValuesEqual current candidate = false) :
    (preserveSemanticallyEqualValues current candidate).outline = candidate.outline := by
  by_cases harray : current.isArray = true ∧ candidate.isArray = true
  · obtain ⟨cs, rfl⟩ := Value.isArray_iff.mp harray.1
    obtain ⟨ds, rfl⟩ := Value.isArray_iff.mp harray.2
    rw [preserve_array hne, Value.outline, Value.outline, preserveItems_length]
  · by_cases hobject : current.isObject = true ∧ candidate.isObject = true
    · obtain ⟨cs, rfl⟩ := Value.isObject_iff.mp hobject.1
      obtain ⟨ds, rfl⟩ := Value.isObject_iff.mp hobject.2
      rw [preserve_object hne]
      rfl
    · rw [preserve_other hne harray hobject]

theorem map_preservedAt_twice {current candidate : Option Value}
    (h : ∀ c ∈ current, ∀ d ∈ candidate, preserveSemanticallyEqualValues c
      (preserveSemanticallyEqualValues c d) = preserveSemanticallyEqualValues c d) :
    (candidate.map (preservedAt current)).map (preservedAt current) =
      candidate.map (preservedAt current) := by
  cases candidate with
  | none => rfl
  | some d =>
    cases current with
    | none => rfl
    | some c => exact congrArg some (h c rfl d rfl)

/-- A second time there is nothing left to do. -/
theorem preserve_idem {current candidate : Value} (hc : current.WF) (hd : candidate.WF) :
    preserveSemanticallyEqualValues current (preserveSemanticallyEqualValues current candidate) =
      preserveSemanticallyEqualValues current candidate := by
  induction current using Value.induct generalizing candidate with
  | array cs ih =>
    cases hequal : jsonValuesEqual (.array cs) candidate with
    | true => rw [preserve_of_equal hequal, preserve_of_equal (jsonValuesEqual_refl _)]
    | false =>
      have hagain := preserve_unequal hc hd hequal
      cases candidate with
      | array ds =>
        rw [preserve_array hequal] at hagain ⊢
        rw [preserve_array hagain]
        refine congrArg Value.array (List.ext_getElem? fun i => ?_)
        rw [getElem?_preserveItems, getElem?_preserveItems]
        refine map_preservedAt_twice fun c hci d hdi => ih c (List.mem_of_getElem? hci)
          (Value.wf_array.mp hc c (List.mem_of_getElem? hci))
          (Value.wf_array.mp hd d (List.mem_of_getElem? hdi))
      | _ =>
        have hother := preserve_other hequal (by simp [Value.isArray]) (by simp [Value.isObject])
        rw [hother, hother]
  | object cs ih =>
    cases hequal : jsonValuesEqual (.object cs) candidate with
    | true => rw [preserve_of_equal hequal, preserve_of_equal (jsonValuesEqual_refl _)]
    | false =>
      have hagain := preserve_unequal hc hd hequal
      have hwf := (preserve_respells hc hd).1
      cases candidate with
      | object ds =>
        rw [preserve_object hequal] at hagain hwf ⊢
        have hwf' := (preserve_respells hc hwf).1
        rw [preserve_object hagain] at hwf' ⊢
        refine congrArg Value.object (SortedMap.ext_get (Value.wf_object.mp hwf').1
          (Value.wf_object.mp hwf).1 fun key => ?_)
        have hsorted := (Value.wf_object.mp hc).1
        rw [get_preserveMembers hsorted, get_preserveMembers hsorted]
        refine map_preservedAt_twice fun c hck d hdk => ih (key, c) (SortedMap.mem_of_get hck)
          (hc.get hck) (hd.get hdk)
      | _ =>
        have hother := preserve_other hequal (by simp [Value.isArray]) (by simp [Value.isObject])
        rw [hother, hother]
  | _ =>
    cases hequal : jsonValuesEqual _ candidate with
    | true => rw [preserve_of_equal hequal, preserve_of_equal (jsonValuesEqual_refl _)]
    | false =>
      have hother := preserve_other hequal (by simp [Value.isArray]) (by simp [Value.isObject])
      rw [hother, hother]

/-- What keeping the spelling of the current value does to a candidate. -/
structure PreservesSpelling (current candidate preserved : Value) : Prop where
  equal : jsonValuesEqual candidate preserved = true
  places : ∀ path, (Value.follow path preserved).isSome = (Value.follow path candidate).isSome
  same : ∀ path c d, Value.follow path current = some c → Value.follow path candidate = some d →
    jsonValuesEqual c d = true → Value.follow path preserved = some c
  other : ∀ path d, Value.follow path candidate = some d →
    (∀ c, Value.follow path current = some c → jsonValuesEqual c d = false) →
    ∃ e, Value.follow path preserved = some e ∧ e.outline = d.outline
  stable : preserveSemanticallyEqualValues current preserved = preserved

/-- Every part that is semantically equal is spelled as the current one, and nothing else changes. -/
theorem preserve_spelling {current candidate : Value} (hc : current.WF) (hd : candidate.WF) :
    PreservesSpelling current candidate
      (preserveSemanticallyEqualValues current candidate) where
  equal := (preserve_respells hc hd).2
  places path := by rw [follow_preserve hc hd, Option.isSome_map]
  same path c d hcurrent hcandidate h := by
    rw [follow_preserve hc hd, hcandidate, hcurrent]
    exact congrArg some (preserve_of_equal h)
  other path d hcandidate h := by
    rw [follow_preserve hc hd, hcandidate]
    refine ⟨_, rfl, ?_⟩
    cases hcurrent : Value.follow path current with
    | none => rfl
    | some c => exact outline_preserve (h c hcurrent)
  stable := preserve_idem hc hd

/-- `{"sizes": [1.0, 2]}` and `{"sizes": [1, 3]}`: the first item keeps its spelling. -/
theorem preserve_spelling_sizes :
    PreservesSpelling (.object [("sizes", .array [.number "1.0", .number "2"])])
      (.object [("sizes", .array [.number "1", .number "3"])])
      (.object [("sizes", .array [.number "1.0", .number "3"])]) := by
  have hresult : preserveSemanticallyEqualValues
      (.object [("sizes", .array [.number "1.0", .number "2"])])
      (.object [("sizes", .array [.number "1", .number "3"])]) =
      .object [("sizes", .array [.number "1.0", .number "3"])] := by decide +kernel
  rw [← hresult]
  exact preserve_spelling (by decide) (by decide)

end Schemaform
