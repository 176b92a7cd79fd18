import Schemaform.Json.Equal

/-!
# Json.Write

What one write at a pointer leaves readable elsewhere.

* `Write p new v w`: `w` is `v` with the value at `p` replaced by `new`, or removed.
* `modify_write`, `setBoundValue_write`, `takeBoundValue_write`: each write of the engine is one.
* `setBoundValue_wf`, `takeBoundValue_wf`: writes keep values well formed.
* `jsonValuesEqual_modify`: a write of an equal value leaves an equal value.
-/

namespace Schemaform

/-- What a write strictly below a value leaves of it: being an object, the length of an array. -/
def Value.shape (v : Value) : Bool × Option Nat := (v.isObject, v.asArray.map List.length)

theorem Value.shape_setChild (v : Value) (token : String) (new : Value) :
    (v.setChild token new).shape = v.shape := by
  cases v with
  | array items =>
    simp only [setChild]
    cases Token.indexFor token items.length <;> simp [shape, isObject, asArray]
  | _ => rfl

structure Write (p : Pointer) (new : Option Value) (v w : Value) : Prop where
  below : ∀ r, Pointer.resolve (p ++ r) w = new.bind (Pointer.resolve r)
  apart : ∀ q, p.Apart q → Pointer.resolve q w = Pointer.resolve q v
  above : ∀ q t r, p = q ++ t :: r →
    (Pointer.resolve q w).map Value.shape = (Pointer.resolve q v).map Value.shape

theorem Write.at_self {p : Pointer} {new : Option Value} {v w : Value} (h : Write p new v w) :
    Pointer.resolve p w = new := by
  have hr := h.below []
  rw [List.append_nil] at hr
  cases new <;> exact hr

/-- A second write at the same place supersedes the first. -/
theorem Write.overwrite {p : Pointer} {old new : Option Value} {u v w : Value}
    (h : Write p old u v) (h' : Write p new v w) : Write p new u w := by
  refine ⟨h'.below, fun q hq => ?_, fun q t r hp => ?_⟩
  · rw [h'.apart q hq, h.apart q hq]
  · rw [h'.above q t r hp, h.above q t r hp]

theorem modify_write {f : Value → Option Value} {p : Pointer} {v w : Value}
    (h : Pointer.modify f p v = some w) : Write p ((Pointer.resolve p v).bind f) v w := by
  constructor
  · exact Pointer.modify_below h
  · intro q hq
    exact Pointer.modify_apart h hq
  · rintro q t r rfl
    obtain ⟨c, c', hc, hm, hc'⟩ := Pointer.modify_above h
    obtain ⟨d, d', _, _, rfl⟩ := Pointer.modify_cons_eq_some hm
    rw [hc, hc', Option.map_some, Option.map_some, Value.shape_setChild]

/-- A write of one member, from the write of the object that holds it. -/
theorem Write.member {parent : Pointer} {property : String} {members members' : List (String × Value)}
    {new : Option Value} {v w : Value} (h : Write parent (some (.object members')) v w)
    (hv : Pointer.resolve parent v = some (.object members))
    (hnew : SortedMap.get property members' = new)
    (hold : ∀ key, property ≠ key → SortedMap.get key members' = SortedMap.get key members) :
    Write (parent ++ [property]) new v w := by
  constructor
  · intro r
    rw [List.append_assoc, h.below, Option.bind_some, List.singleton_append, Pointer.resolve_cons,
      Value.child, hnew]
  · intro q hq
    rcases Pointer.trichotomy parent q with ⟨r, rfl⟩ | ⟨t, r, rfl⟩ | hpq
    · cases r with
      | nil => exact absurd hq.1 (by simp)
      | cons key r =>
        have hne : property ≠ key := by
          rintro rfl
          exact absurd hq.2 (by simp [Pointer.startsWith])
        rw [h.below, Pointer.resolve_append, hv, Option.bind_some, Option.bind_some,
          Pointer.resolve_cons, Pointer.resolve_cons, Value.child, Value.child, hold key hne]
    · refine absurd hq.1 ?_
      rw [List.append_assoc]
      simp
    · exact h.apart q hpq
  · intro q t r hp
    have hcases : q = parent ∨ ∃ r', parent = q ++ t :: r' := by
      rcases List.append_eq_append_iff.mp hp with ⟨a, rfl, hr⟩ | ⟨a, rfl, hr⟩
      · cases a with
        | nil => exact .inl (by simp)
        | cons u a => simp at hr
      · cases a with
        | nil => exact .inl (by simp)
        | cons u a =>
          rw [List.cons_append, List.cons.injEq] at hr
          exact .inr ⟨a, by rw [hr.1]⟩
    rcases hcases with rfl | ⟨r', rfl⟩
    · rw [h.at_self, hv]
      rfl
    · exact h.above q t r' rfl

theorem setBoundValue_write {p : Pointer} {value v w : Value}
    (h : setBoundValue p value v = some w) : Write p (some value) v w := by
  simp only [setBoundValue] at h
  split at h
  · rename_i w' hm
    cases h
    obtain ⟨c, c', hc, hf, _⟩ := Pointer.modify_at hm
    have hw := modify_write hm
    rwa [hc, Option.bind_some] at hw
  · split at h
    · cases h
    · rename_i parent property hp
      obtain rfl := Pointer.splitBack_eq_some.mp hp
      obtain ⟨c, c', hc, hf, _⟩ := Pointer.modify_at h
      have hw := modify_write h
      rw [hc, Option.bind_some, hf] at hw
      cases c with
      | object members =>
        cases hf
        exact hw.member hc (SortedMap.get_insert_self property value members)
          (fun key hne => SortedMap.get_insert_ne hne value members)
      | _ => cases hf

theorem takeBoundValue_eq_some {p : Pointer} {v w : Value} (h : takeBoundValue p v = some w) :
    ∃ parent property members, p = parent ++ [property] ∧
      Pointer.resolve parent v = some (.object members) ∧
      (SortedMap.get property members).isSome ∧
      Write parent (some (.object (SortedMap.erase property members))) v w := by
  simp only [takeBoundValue] at h
  split at h
  · cases h
  · rename_i parent property hp
    obtain rfl := Pointer.splitBack_eq_some.mp hp
    obtain ⟨c, c', hc, hf, _⟩ := Pointer.modify_at h
    have hw := modify_write h
    rw [hc, Option.bind_some, hf] at hw
    cases c with
    | object members =>
      simp only [removeMember, Option.map_eq_some_iff] at hf
      obtain ⟨old, hold, rfl⟩ := hf
      exact ⟨parent, property, members, rfl, hc, by simp [hold], hw⟩
    | _ => cases hf

theorem takeBoundValue_write {p : Pointer} {v w : Value} (hv : v.WF)
    (h : takeBoundValue p v = some w) : Write p none v w := by
  obtain ⟨parent, property, members, rfl, hc, _, hw⟩ := takeBoundValue_eq_some h
  have hs := (Value.wf_object.mp (Pointer.WF_resolve hv hc)).1
  exact hw.member hc (SortedMap.get_erase_self hs)
    (fun key hne => SortedMap.get_erase_ne hne members)

theorem takeBoundValue_isSome {p : Pointer} {v w : Value} (h : takeBoundValue p v = some w) :
    (Pointer.resolve p v).isSome := by
  obtain ⟨parent, property, members, rfl, hc, hs, _⟩ := takeBoundValue_eq_some h
  obtain ⟨old, hold⟩ := Option.isSome_iff_exists.mp hs
  simp [Pointer.resolve_append, hc, Pointer.resolve_cons, Value.child, hold]

/-- A write that changes the value at its place changes the data. -/
theorem Write.not_equal {p : Pointer} {new : Option Value} {v w : Value} (h : Write p new v w)
    (hv : v.WF) (hw : w.WF) (hne : ¬ SameValue (Pointer.resolve p v) new) :
    jsonValuesEqual v w = false := by
  refine Bool.eq_false_iff.mpr fun heq => hne ?_
  have := resolve_congr hv hw heq p
  rwa [h.at_self] at this

/-! ## Equal values -/

theorem jsonValuesEqual_setChild {v c c' : Value} {token : String} (hv : v.WF)
    (hc : v.child token = some c) (h : jsonValuesEqual c c' = true) :
    jsonValuesEqual v (v.setChild token c') = true := by
  cases v with
  | object members =>
    have hs := (Value.wf_object.mp hv).1
    refine (jsonValuesEqual_object hs (hs.set token c')).mpr ?_
    exact SortedMap.forall₂_set (P := fun a b => jsonValuesEqual a b = true)
      jsonValuesEqual_refl hc h
  | array items =>
    obtain ⟨i, hi, hci⟩ := Option.bind_eq_some_iff.mp hc
    simp only [Value.setChild, hi]
    refine jsonValuesEqual_array.mpr (List.forall₂_iff_get.mpr ⟨by simp, fun j hj hj' => ?_⟩)
    simp only [List.get_eq_getElem, List.getElem_set]
    split
    · rename_i hij
      subst hij
      obtain ⟨_, rfl⟩ := List.getElem?_eq_some_iff.mp hci
      exact h
    · exact jsonValuesEqual_refl _
  | _ => cases hc

/-- Writing an equal value changes nothing semantically. -/
theorem jsonValuesEqual_modify {f : Value → Option Value} {p : Pointer} {v w : Value} (hv : v.WF)
    (hf : ∀ c c', Pointer.resolve p v = some c → f c = some c' → jsonValuesEqual c c' = true)
    (h : Pointer.modify f p v = some w) : jsonValuesEqual v w = true := by
  induction p generalizing v w with
  | nil => exact hf v w rfl h
  | cons t p ih =>
    obtain ⟨c, c', hc, hm, rfl⟩ := Pointer.modify_cons_eq_some h
    refine jsonValuesEqual_setChild hv hc (ih (hv.child hc) (fun d d' hd => hf d d' ?_) hm)
    rw [Pointer.resolve_cons, hc]
    exact hd

theorem jsonValuesEqual_setBoundValue {p : Pointer} {value c v w : Value} (hv : v.WF)
    (hc : Pointer.resolve p v = some c) (heq : jsonValuesEqual c value = true)
    (h : setBoundValue p value v = some w) : jsonValuesEqual v w = true := by
  obtain ⟨w', hw'⟩ := Pointer.modify_isSome (f := fun _ => some value) hc rfl
  rw [setBoundValue, hw'] at h
  cases h
  refine jsonValuesEqual_modify hv (fun d d' hd hd' => ?_) hw'
  cases hc.symm.trans hd
  cases hd'
  exact heq

/-! ## Well-formedness -/

theorem setBoundValue_wf {p : Pointer} {value v w : Value} (hv : v.WF) (hvalue : value.WF)
    (h : setBoundValue p value v = some w) : w.WF := by
  simp only [setBoundValue] at h
  split at h
  · rename_i w' hm
    cases h
    exact Pointer.WF_modify hv (fun c c' _ hf => by cases hf; exact hvalue) hm
  · split at h
    · cases h
    · refine Pointer.WF_modify hv (fun c c' hc hf => ?_) h
      cases c with
      | object members =>
        cases hf
        exact (Pointer.WF_resolve hv hc).insert _ hvalue
      | _ => cases hf

theorem takeBoundValue_wf {p : Pointer} {v w : Value} (hv : v.WF)
    (h : takeBoundValue p v = some w) : w.WF := by
  simp only [takeBoundValue] at h
  split at h
  · cases h
  · refine Pointer.WF_modify hv (fun c c' hc hf => ?_) h
    cases c with
    | object members =>
      simp only [removeMember, Option.map_eq_some_iff] at hf
      obtain ⟨_, _, rfl⟩ := hf
      exact (Pointer.WF_resolve hv hc).erase _
    | _ => cases hf

/-! ## The root -/

/-- A write below the root keeps the root an object. -/
theorem Write.isObject {p : Pointer} {new : Option Value} {v w : Value} (h : Write p new v w)
    (hp : p ≠ []) : w.isObject = v.isObject := by
  cases p with
  | nil => exact absurd rfl hp
  | cons t r =>
    have := h.above [] t r rfl
    simp only [Pointer.resolve_nil, Option.map_some, Option.some.injEq, Value.shape,
      Prod.mk.injEq] at this
    exact this.1

theorem takeBoundValue_ne_nil {p : Pointer} {v w : Value} (h : takeBoundValue p v = some w) :
    p ≠ [] := by
  obtain ⟨parent, property, _, rfl, _⟩ := takeBoundValue_eq_some h
  simp

end Schemaform
