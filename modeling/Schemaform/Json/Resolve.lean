import Schemaform.Json.Pointer

/-!
# Json.Resolve

Reading and writing at a pointer.

* `child`, `setChild`: one token into an object or an array, with the lens laws.
* `Pointer.resolve`, `Pointer.modify`: the whole path. `modify f p v` writes through a mutable
  resolution of `p`; it is `none` when `p` does not resolve or `f` rejects what it finds.
* `setBoundValue`, `takeBoundValue`: the two writes of the form engine.
* `modify_at`, `modify_below`, `modify_above`, `modify_apart`: the frame of a write, one rule for
  each position of the reader relative to the writer.
-/

namespace Schemaform

namespace Value

def child (v : Value) (token : String) : Option Value :=
  match v with
  | .object members => SortedMap.get token members
  | .array items => (Token.indexFor token items.length).bind (items[·]?)
  | _ => none

def setChild (v : Value) (token : String) (new : Value) : Value :=
  match v with
  | .object members => .object (SortedMap.set token new members)
  | .array items =>
    match Token.indexFor token items.length with
    | some i => .array (items.set i new)
    | none => .array items
  | v => v

theorem child_setChild_self {token : String} {v c : Value} (new : Value)
    (h : v.child token = some c) : (v.setChild token new).child token = some new := by
  cases v with
  | object members =>
    exact SortedMap.get_set_self new (Option.isSome_iff_exists.mpr ⟨c, h⟩)
  | array items =>
    simp only [child, Option.bind_eq_some_iff] at h
    obtain ⟨i, hi, hc⟩ := h
    obtain ⟨hlt, -⟩ := List.getElem?_eq_some_iff.mp hc
    simp [setChild, hi, child, hlt]
  | _ => cases h

theorem child_setChild_ne {token token' : String} (h : token ≠ token') (new v : Value) :
    (v.setChild token new).child token' = v.child token' := by
  cases v with
  | object members => exact SortedMap.get_set_ne h new members
  | array items =>
    simp only [setChild]
    cases hi : Token.indexFor token items.length with
    | none => rfl
    | some i =>
      simp only [child, List.length_set]
      cases hj : Token.indexFor token' items.length with
      | none => rfl
      | some j =>
        have hij : i ≠ j := by
          rintro rfl
          exact h ((Token.indexFor_eq_some.mp hi).1.trans (Token.indexFor_eq_some.mp hj).1.symm)
        simp [List.getElem?_set_ne hij]
  | _ => rfl

theorem WF.child {v c : Value} {token : String} (hv : v.WF) (h : v.child token = some c) : c.WF := by
  cases v with
  | object members => exact hv.get h
  | array items =>
    simp only [Value.child, Option.bind_eq_some_iff] at h
    obtain ⟨i, -, hc⟩ := h
    exact wf_array.mp hv c (List.mem_of_getElem? hc)
  | _ => cases h

theorem WF.setChild {v new : Value} (hv : v.WF) (hn : new.WF) (token : String) :
    (v.setChild token new).WF := by
  cases v with
  | object members => exact hv.set token hn
  | array items =>
    simp only [Value.setChild]
    cases Token.indexFor token items.length with
    | none => exact hv
    | some i =>
      refine wf_array.mpr fun u hu => ?_
      rcases List.mem_or_eq_of_mem_set hu with hu | rfl
      · exact wf_array.mp hv u hu
      · exact hn
  | _ => exact hv

end Value

namespace Pointer

def resolve : Pointer → Value → Option Value
  | [], v => some v
  | token :: rest, v => (v.child token).bind (resolve rest)

/-- Write `f` of the value at the pointer back in its place. -/
def modify (f : Value → Option Value) : Pointer → Value → Option Value
  | [], v => f v
  | token :: rest, v => (v.child token).bind fun c => (modify f rest c).map fun c' =>
      v.setChild token c'

@[simp] theorem resolve_nil (v : Value) : resolve [] v = some v := rfl

theorem resolve_cons (t : String) (p : Pointer) (v : Value) :
    resolve (t :: p) v = (v.child t).bind (resolve p) := rfl

theorem resolve_append (p q : Pointer) (v : Value) :
    resolve (p ++ q) v = (resolve p v).bind (resolve q) := by
  induction p generalizing v with
  | nil => rfl
  | cons t p ih =>
    simp only [List.cons_append, resolve_cons]
    cases v.child t with
    | none => rfl
    | some c => exact ih c

theorem WF_resolve {p : Pointer} {v c : Value} (hv : v.WF) (h : resolve p v = some c) : c.WF := by
  induction p generalizing v with
  | nil => cases h; exact hv
  | cons t p ih =>
    obtain ⟨d, hd, hc⟩ := Option.bind_eq_some_iff.mp h
    exact ih (hv.child hd) hc

theorem modify_cons_eq_some {f : Value → Option Value} {t : String} {p : Pointer} {v w : Value}
    (h : modify f (t :: p) v = some w) :
    ∃ c c', v.child t = some c ∧ modify f p c = some c' ∧ w = v.setChild t c' := by
  obtain ⟨c, hc, h⟩ := Option.bind_eq_some_iff.mp h
  obtain ⟨c', hc', rfl⟩ := Option.map_eq_some_iff.mp h
  exact ⟨c, c', hc, hc', rfl⟩

/-- Reading where the write happened. -/
theorem modify_at {f : Value → Option Value} {p : Pointer} {v w : Value}
    (h : modify f p v = some w) :
    ∃ c c', resolve p v = some c ∧ f c = some c' ∧ resolve p w = some c' := by
  induction p generalizing v w with
  | nil => exact ⟨v, w, rfl, h, rfl⟩
  | cons t p ih =>
    obtain ⟨c, c', hc, hm, rfl⟩ := modify_cons_eq_some h
    obtain ⟨d, d', hd, hf, hd'⟩ := ih hm
    refine ⟨d, d', ?_, hf, ?_⟩
    · rw [resolve_cons, hc]; exact hd
    · rw [resolve_cons, Value.child_setChild_self c' hc]; exact hd'

/-- Reading below the write sees the new value. -/
theorem modify_below {f : Value → Option Value} {p : Pointer} {v w : Value}
    (h : modify f p v = some w) (r : Pointer) :
    resolve (p ++ r) w = ((resolve p v).bind f).bind (resolve r) := by
  obtain ⟨c, c', hc, hf, hc'⟩ := modify_at h
  rw [resolve_append, hc', hc]
  simp only [Option.bind_some, hf]

/-- Reading above the write sees it as a write at the remaining path. -/
theorem modify_above {f : Value → Option Value} {q r : Pointer} {v w : Value}
    (h : modify f (q ++ r) v = some w) :
    ∃ c c', resolve q v = some c ∧ modify f r c = some c' ∧ resolve q w = some c' := by
  induction q generalizing v w with
  | nil => exact ⟨v, w, rfl, h, rfl⟩
  | cons t q ih =>
    obtain ⟨c, c', hc, hm, rfl⟩ := modify_cons_eq_some h
    obtain ⟨d, d', hd, hf, hd'⟩ := ih hm
    refine ⟨d, d', ?_, hf, ?_⟩
    · rw [resolve_cons, hc]; exact hd
    · rw [resolve_cons, Value.child_setChild_self c' hc]; exact hd'

/-- Reading apart from the write sees nothing of it. -/
theorem modify_apart {f : Value → Option Value} {p q : Pointer} {v w : Value}
    (h : modify f p v = some w) (hq : p.Apart q) : resolve q w = resolve q v := by
  induction p generalizing q v w with
  | nil => simp [Apart, startsWith] at hq
  | cons t p ih =>
    cases q with
    | nil => simp [Apart, startsWith] at hq
    | cons u q =>
      obtain ⟨c, c', hc, hm, rfl⟩ := modify_cons_eq_some h
      rw [resolve_cons, resolve_cons]
      by_cases htu : t = u
      · subst htu
        rw [Value.child_setChild_self c' hc, hc]
        exact ih hm (apart_cons.mp hq)
      · rw [Value.child_setChild_ne htu]

theorem modify_isSome {f : Value → Option Value} {p : Pointer} {v c c' : Value}
    (hc : resolve p v = some c) (hf : f c = some c') : ∃ w, modify f p v = some w := by
  induction p generalizing v with
  | nil => cases hc; exact ⟨c', hf⟩
  | cons t p ih =>
    obtain ⟨d, hd, hc⟩ := Option.bind_eq_some_iff.mp hc
    obtain ⟨w, hw⟩ := ih hc
    exact ⟨v.setChild t w, by simp [modify, hd, hw]⟩

theorem WF_modify {f : Value → Option Value} {p : Pointer} {v w : Value} (hv : v.WF)
    (hf : ∀ c c', resolve p v = some c → f c = some c' → c'.WF) (h : modify f p v = some w) :
    w.WF := by
  induction p generalizing v w with
  | nil => exact hf v w rfl h
  | cons t p ih =>
    obtain ⟨c, c', hc, hm, rfl⟩ := modify_cons_eq_some h
    refine hv.setChild (ih (hv.child hc) (fun d d' hd => hf d d' ?_) hm) t
    rw [resolve_cons, hc]; exact hd

end Pointer

/-! ## The engine's writes -/

def insertMember (property : String) (value : Value) : Value → Option Value
  | .object members => some (.object (SortedMap.insert property value members))
  | _ => none

def removeMember (property : String) : Value → Option Value
  | .object members =>
    (SortedMap.get property members).map fun _ => .object (SortedMap.erase property members)
  | _ => none

/-- Overwrite a present value, or insert a missing member into a present object. -/
def setBoundValue (binding : Pointer) (value : Value) (formData : Value) : Option Value :=
  match binding.modify (fun _ => some value) formData with
  | some formData => some formData
  | none =>
    match binding.splitBack with
    | none => none
    | some (parent, property) => Pointer.modify (insertMember property value) parent formData

/-- Remove a present member of a present object. -/
def takeBoundValue (binding : Pointer) (formData : Value) : Option Value :=
  match binding.splitBack with
  | none => none
  | some (parent, property) => Pointer.modify (removeMember property) parent formData

def bindingParentIsObject (binding : Pointer) (formData : Value) : Bool :=
  match binding.splitBack with
  | none => false
  | some (parent, _) => (Pointer.resolve parent formData).any Value.isObject

end Schemaform
