import Schemaform.Json.Write

/-!
# Json.Outline

What a value shows at one place, without what is below it.

* `Value.outline`: a scalar, the length of an array, or that it is an object.
* `Value.ext_outline`: well-formed values with the same outline everywhere are one value.
* `setBoundValue_outline`: a new member changes the outline nowhere else.
-/

namespace Schemaform

namespace Value

def outline : Value → Value
  | .array items => .array (List.replicate items.length .null)
  | .object _ => .object []
  | v => v

theorem outline_eq_array {v : Value} {items : List Value} (h : v.outline = (array items).outline) :
    ∃ items' : List Value, v = .array items' ∧ items'.length = items.length := by
  cases v with
  | array items' =>
    have hlen := congrArg List.length (Value.array.inj h)
    exact ⟨items', rfl, by simpa using hlen⟩
  | _ => cases h

theorem outline_eq_object {v : Value} {members : List (String × Value)}
    (h : v.outline = (object members).outline) : ∃ members', v = .object members' := by
  cases v with
  | object members' => exact ⟨members', rfl⟩
  | _ => cases h

/-- A value with the shape of a container has its outline. -/
theorem outline_of_shape {v w : Value} (h : w.shape = v.shape)
    (hv : v.isObject = true ∨ v.isArray = true) : w.outline = v.outline := by
  cases v with
  | object members =>
    obtain ⟨members', rfl⟩ := isObject_iff.mp (congrArg Prod.fst h)
    rfl
  | array items =>
    have hlen := congrArg Prod.snd h
    simp only [shape, asArray, Option.map_some, Option.map_eq_some_iff] at hlen
    obtain ⟨items', hitems, hlen⟩ := hlen
    rw [asArray_eq_some.mp hitems, outline, outline, hlen]
  | _ => simp [isObject, isArray] at hv

theorem isContainer_of_child {v c : Value} {token : String} (h : v.child token = some c) :
    v.isObject = true ∨ v.isArray = true := by
  cases v with
  | object members => exact .inl rfl
  | array items => exact .inr rfl
  | _ => cases h

end Value

/-- What shows at a place, none where nothing is. -/
def Pointer.outline (p : Pointer) (v : Value) : Option Value :=
  (Pointer.resolve p v).map Value.outline

theorem Pointer.outline_cons {token : String} {p : Pointer} {v c : Value}
    (h : v.child token = some c) : Pointer.outline (token :: p) v = Pointer.outline p c := by
  rw [Pointer.outline, Pointer.outline, Pointer.resolve_cons, h, Option.bind_some]

theorem Pointer.outline_isSome {p : Pointer} {v w : Value}
    (h : Pointer.outline p v = Pointer.outline p w) :
    (Pointer.resolve p v).isSome = (Pointer.resolve p w).isSome := by
  simpa [Pointer.outline] using congrArg Option.isSome h

/-- Well-formed values that show the same everywhere. -/
theorem Value.ext_outline {v w : Value} (hv : v.WF) (hw : w.WF)
    (h : ∀ p, Pointer.outline p v = Pointer.outline p w) : v = w := by
  have hroot : v.outline = w.outline := Option.some.inj (h [])
  induction v using Value.induct generalizing w with
  | array items ih =>
    obtain ⟨items', rfl, hlen⟩ := outline_eq_array hroot.symm
    congr 1
    refine List.ext_getElem hlen.symm fun i hi hi' => ?_
    have hc {l : List Value} (hl : i < l.length) :
        (Value.array l).child (Nat.repr i) = some l[i] := by
      rw [Value.child, Token.indexFor_repr hl, Option.bind_some, List.getElem?_eq_getElem hl]
    have hbelow (p : Pointer) : Pointer.outline p items[i] = Pointer.outline p items'[i] := by
      rw [← Pointer.outline_cons (hc hi), ← Pointer.outline_cons (hc hi'), h]
    exact ih _ (List.getElem_mem hi) (hv.child (hc hi)) (hw.child (hc hi')) hbelow
      (Option.some.inj (hbelow []))
  | object members ih =>
    obtain ⟨members', rfl⟩ := outline_eq_object hroot.symm
    congr 1
    refine SortedMap.ext_get (wf_object.mp hv).1 (wf_object.mp hw).1 fun key => ?_
    have hsome : (SortedMap.get key members).isSome = (SortedMap.get key members').isSome := by
      have hresolve (l : List (String × Value)) :
          Pointer.resolve [key] (.object l) = SortedMap.get key l := by
        cases hl : SortedMap.get key l <;> simp [Pointer.resolve, child, hl]
      simpa only [hresolve] using Pointer.outline_isSome (h [key])
    cases hm : SortedMap.get key members with
    | none =>
      rw [hm] at hsome
      exact (Option.isNone_iff_eq_none.mp (by simpa using hsome.symm)).symm
    | some c =>
      rw [hm] at hsome
      obtain ⟨d, hd⟩ := Option.isSome_iff_exists.mp hsome.symm
      have hbelow (p : Pointer) : Pointer.outline p c = Pointer.outline p d := by
        have hc : (Value.object members).child key = some c := hm
        have hc' : (Value.object members').child key = some d := hd
        rw [← Pointer.outline_cons hc, ← Pointer.outline_cons hc', h]
      have hcd : c = d := ih (key, c) (SortedMap.mem_of_get hm) (hv.get hm) (hw.get hd) hbelow
        (Option.some.inj (hbelow []))
      rw [hd, hcd]
  | _ =>
    cases w with
    | array _ | object _ => cases hroot
    | _ => exact hroot

/-! ## New members -/

theorem bindingParentIsObject_eq {parent : Pointer} {property : String} {v : Value} :
    bindingParentIsObject (parent ++ [property]) v =
      (Pointer.resolve parent v).any Value.isObject := by
  unfold bindingParentIsObject
  rw [Pointer.splitBack_eq_some.mpr rfl]

theorem bindingParentIsObject_iff {p : Pointer} {v : Value} : bindingParentIsObject p v = true ↔
    ∃ parent property, p = parent ++ [property] ∧
      Pointer.outline parent v = some (.object []) := by
  constructor
  · intro h
    unfold bindingParentIsObject at h
    split at h
    · cases h
    · rename_i parent property hp
      obtain ⟨c, hc, hobject⟩ := (Option.any_eq_true _ _).mp h
      obtain ⟨members, rfl⟩ := Value.isObject_iff.mp hobject
      exact ⟨parent, property, Pointer.splitBack_eq_some.mp hp, by rw [Pointer.outline, hc]; rfl⟩
  · rintro ⟨parent, property, rfl, h⟩
    obtain ⟨c, hc, ho⟩ := Option.map_eq_some_iff.mp h
    obtain ⟨members, rfl⟩ := @Value.outline_eq_object _ [] ho
    rw [bindingParentIsObject_eq, hc]
    rfl

/-- Everything above an absent member of a present object is a container. -/
theorem isContainer_above {q r : Pointer} {t : String} {v : Value}
    (h : bindingParentIsObject (q ++ t :: r) v = true) :
    ∃ c, Pointer.resolve q v = some c ∧ (c.isObject = true ∨ c.isArray = true) := by
  obtain ⟨parent, property, heq, hobject⟩ := bindingParentIsObject_iff.mp h
  obtain ⟨d, hd, ho⟩ := Option.map_eq_some_iff.mp hobject
  rcases List.append_eq_append_iff.mp heq with ⟨a, rfl, ha⟩ | ⟨a, rfl, ha⟩
  · cases a with
    | nil =>
      rw [List.append_nil] at hd
      obtain ⟨members, rfl⟩ := @Value.outline_eq_object _ [] ho
      exact ⟨_, hd, .inl rfl⟩
    | cons u a =>
      rw [Pointer.resolve_append] at hd
      obtain ⟨c, hc, hd⟩ := Option.bind_eq_some_iff.mp hd
      rw [Pointer.resolve_cons] at hd
      obtain ⟨e, he, -⟩ := Option.bind_eq_some_iff.mp hd
      exact ⟨c, hc, Value.isContainer_of_child he⟩
  · cases a with
    | nil =>
      rw [List.append_nil]
      obtain ⟨members, rfl⟩ := @Value.outline_eq_object _ [] ho
      exact ⟨_, hd, .inl rfl⟩
    | cons u a => simp at ha

/-- Off its own place a write below a present object changes no outline. -/
theorem setBoundValue_outline {p q : Pointer} {value v w : Value}
    (hparent : bindingParentIsObject p v = true) (h : setBoundValue p value v = some w)
    (hq : q.startsWith p = false) : Pointer.outline q w = Pointer.outline q v := by
  have hw := setBoundValue_write h
  rcases Pointer.trichotomy p q with ⟨r, rfl⟩ | ⟨t, r, rfl⟩ | hapart
  · simp at hq
  · obtain ⟨c, hc, hcontainer⟩ := isContainer_above hparent
    have hshape := hw.above q t r rfl
    rw [hc, Option.map_some, Option.map_eq_some_iff] at hshape
    obtain ⟨d, hd, hshape⟩ := hshape
    rw [Pointer.outline, Pointer.outline, hc, hd, Option.map_some, Option.map_some,
      Value.outline_of_shape hshape hcontainer]
  · rw [Pointer.outline, Pointer.outline, hw.apart q hapart]

end Schemaform
