import Schemaform.Json.Resolve

/-!
# Json.Positions

The places in a value, and values that differ in texts under one key only.

* `valuePointers`: a pointer to every place; `mem_valuePointers` has all that resolve.
* `sizeOf_resolve_lt`: what stands below a place is smaller, so walks over subvalues end.
* `Value.forget key`: the value with the texts under `key` emptied. Two values that forget to one
  have the same places, and the same at them but for those texts (`Alike.resolve`).
-/

namespace Schemaform

/-! ## Places -/

mutual

def valuePointers : Value → List Pointer
  | .object members => [] :: memberPointers members
  | .array items => [] :: itemPointers 0 items
  | _ => [[]]

def memberPointers : List (String × Value) → List Pointer
  | [] => []
  | (key, value) :: members => (valuePointers value).map (key :: ·) ++ memberPointers members

def itemPointers (index : Nat) : List Value → List Pointer
  | [] => []
  | value :: items =>
    (valuePointers value).map (Nat.repr index :: ·) ++ itemPointers (index + 1) items

end

theorem nil_mem_valuePointers (v : Value) : [] ∈ valuePointers v := by
  cases v <;> simp [valuePointers]

theorem mem_memberPointers {key : String} {value : Value} {p : Pointer}
    {members : List (String × Value)} (hm : (key, value) ∈ members) (hp : p ∈ valuePointers value) :
    key :: p ∈ memberPointers members := by
  induction members with
  | nil => cases hm
  | cons e members ih =>
    rw [memberPointers, List.mem_append]
    rcases List.mem_cons.mp hm with rfl | hm
    · exact .inl (List.mem_map_of_mem hp)
    · exact .inr (ih hm)

theorem mem_itemPointers {value : Value} {p : Pointer} {items : List Value} {i start : Nat}
    (hi : items[i]? = some value) (hp : p ∈ valuePointers value) :
    Nat.repr (start + i) :: p ∈ itemPointers start items := by
  induction items generalizing i start with
  | nil => cases hi
  | cons item items ih =>
    rw [itemPointers, List.mem_append]
    cases i with
    | zero =>
      obtain rfl : item = value := by simpa using hi
      exact .inl (List.mem_map_of_mem hp)
    | succ i =>
      have h := @ih i (start + 1) (by simpa using hi)
      rw [show start + (i + 1) = start + 1 + i by omega]
      exact .inr h

theorem mem_valuePointers {p : Pointer} {v : Value} (h : (p.resolve v).isSome = true) :
    p ∈ valuePointers v := by
  induction p generalizing v with
  | nil => exact nil_mem_valuePointers v
  | cons token p ih =>
    obtain ⟨c, hc⟩ := Option.isSome_iff_exists.mp h
    obtain ⟨child, hchild, hc⟩ := Option.bind_eq_some_iff.mp hc
    have hp : p ∈ valuePointers child := ih (Option.isSome_iff_exists.mpr ⟨c, hc⟩)
    cases v with
    | object members =>
      rw [valuePointers]
      exact List.mem_cons_of_mem _ (mem_memberPointers (SortedMap.mem_of_get hchild) hp)
    | array items =>
      simp only [Value.child, Option.bind_eq_some_iff] at hchild
      obtain ⟨i, hi, hchild⟩ := hchild
      obtain ⟨rfl, -⟩ := Token.indexFor_eq_some.mp hi
      have := @mem_itemPointers child p items i 0 hchild hp
      rw [Nat.zero_add] at this
      rw [valuePointers]
      exact List.mem_cons_of_mem _ this
    | _ => cases hchild

theorem sizeOf_child_lt {token : String} {v c : Value} (h : v.child token = some c) :
    sizeOf c < sizeOf v := by
  cases v with
  | object members =>
    have hlt := List.sizeOf_lt_of_mem (SortedMap.mem_of_get h)
    simp only [Prod.mk.sizeOf_spec] at hlt
    simp only [Value.object.sizeOf_spec]
    omega
  | array items =>
    simp only [Value.child, Option.bind_eq_some_iff] at h
    obtain ⟨i, -, hc⟩ := h
    have hlt := List.sizeOf_lt_of_mem (List.mem_of_getElem? hc)
    simp only [Value.array.sizeOf_spec]
    omega
  | _ => cases h

theorem sizeOf_resolve_le {p : Pointer} {v c : Value} (h : p.resolve v = some c) :
    sizeOf c ≤ sizeOf v := by
  induction p generalizing v with
  | nil =>
    cases h
    exact Nat.le_refl _
  | cons token p ih =>
    obtain ⟨d, hd, hc⟩ := Option.bind_eq_some_iff.mp h
    have hle := ih hc
    have hlt := sizeOf_child_lt hd
    omega

theorem sizeOf_resolve_lt {p : Pointer} {v c : Value} (hp : p ≠ []) (h : p.resolve v = some c) :
    sizeOf c < sizeOf v := by
  cases p with
  | nil => exact absurd rfl hp
  | cons token p =>
    obtain ⟨d, hd, hc⟩ := Option.bind_eq_some_iff.mp h
    have hle := sizeOf_resolve_le hc
    have hlt := sizeOf_child_lt hd
    omega

/-! ## Texts under one key -/

namespace Value

mutual

def forget (key : String) : Value → Value
  | .array items => .array (forgetItems key items)
  | .object members => .object (forgetMembers key members)
  | value => value

def forgetItems (key : String) : List Value → List Value
  | [] => []
  | value :: items => forget key value :: forgetItems key items

def forgetMembers (key : String) : List (String × Value) → List (String × Value)
  | [] => []
  | (name, value) :: members =>
    (name, if name = key ∧ value.isString = true then .string "" else forget key value) ::
      forgetMembers key members

end

/-- What is left of a member. -/
def forgetAt (key token : String) (value : Value) : Value :=
  if token = key ∧ value.isString = true then .string "" else forget key value

theorem forgetAt_of_ne {key token : String} (h : token ≠ key) (v : Value) :
    forgetAt key token v = forget key v := if_neg fun hc => h hc.1

/-- An index is no such key. -/
theorem indexFor_ne {key token : String} (hkey : Token.toNumeral key = none) {len i : Nat}
    (h : Token.indexFor token len = some i) : token ≠ key := by
  rintro rfl
  rw [Token.indexFor, hkey] at h
  cases h

theorem forgetItems_eq (key : String) (items : List Value) :
    forgetItems key items = items.map (forget key) := by
  induction items with
  | nil => rfl
  | cons v items ih => rw [forgetItems, ih, List.map_cons]

theorem forgetMembers_eq (key : String) (members : List (String × Value)) :
    forgetMembers key members = members.map fun e => (e.1, forgetAt key e.1 e.2) := by
  induction members with
  | nil => rfl
  | cons e members ih => rw [forgetMembers, ih, List.map_cons, forgetAt]

theorem get_forgetMembers (key token : String) (members : List (String × Value)) :
    SortedMap.get token (forgetMembers key members) =
      (SortedMap.get token members).map (forgetAt key token) := by
  induction members with
  | nil => rfl
  | cons e members ih =>
    obtain ⟨name, value⟩ := e
    rw [forgetMembers, SortedMap.get_cons, SortedMap.get_cons, ih]
    by_cases h : name = token
    · subst h
      rw [if_pos rfl, if_pos rfl]
      rfl
    · rw [if_neg h, if_neg h]

theorem child_forget {key : String} (hkey : Token.toNumeral key = none) (token : String)
    (v : Value) : (forget key v).child token = (v.child token).map (forgetAt key token) := by
  cases v with
  | object members => exact get_forgetMembers key token members
  | array items =>
    rw [forget, forgetItems_eq]
    simp only [child, List.length_map]
    cases hi : Token.indexFor token items.length with
    | none => rfl
    | some i =>
      have hne := indexFor_ne hkey hi
      simp only [Option.bind_some, List.getElem?_map, funext (forgetAt_of_ne hne)]
  | _ => rfl

@[simp] theorem isString_forget (key : String) (v : Value) :
    (forget key v).isString = v.isString := by
  cases v <;> rfl

/-- Values that are one but for texts under the key, or both texts. -/
def Alike (key : String) (v w : Value) : Prop :=
  forget key v = forget key w ∨ v.isString = true ∧ w.isString = true

theorem Alike.symm {key : String} {v w : Value} (h : Alike key v w) : Alike key w v := by
  rcases h with h | ⟨hv, hw⟩
  · exact .inl h.symm
  · exact .inr ⟨hw, hv⟩

theorem Alike.of_forgetAt {key token : String} {v w : Value}
    (h : forgetAt key token v = forgetAt key token w) : Alike key v w := by
  have hstring (u : Value) : (forgetAt key token u).isString = u.isString := by
    rw [forgetAt]
    split
    · rename_i hu
      rw [hu.2]
      rfl
    · exact isString_forget key u
  by_cases hv : v.isString = true
  · refine .inr ⟨hv, ?_⟩
    rw [← hstring w, ← h, hstring v]
    exact hv
  · have hw : ¬w.isString = true := by
      rw [← hstring w, ← h, hstring v]
      exact hv
    rw [forgetAt, forgetAt, if_neg fun hc => hv hc.2, if_neg fun hc => hw hc.2] at h
    exact .inl h

theorem Alike.child {key token : String} (hkey : Token.toNumeral key = none) {v w c : Value}
    (h : Alike key v w) (hc : v.child token = some c) :
    ∃ c', w.child token = some c' ∧ forgetAt key token c = forgetAt key token c' := by
  rcases h with h | ⟨hv, -⟩
  · have hforget := congrArg (Value.child · token) h
    simp only [child_forget hkey, hc, Option.map_some] at hforget
    obtain ⟨c', hc', heq⟩ := Option.map_eq_some_iff.mp hforget.symm
    exact ⟨c', hc', heq.symm⟩
  · cases v with
    | string s => cases hc
    | _ => cases hv

theorem Alike.resolve {key : String} (hkey : Token.toNumeral key = none) {p : Pointer}
    {v w c : Value} (h : Alike key v w) (hc : p.resolve v = some c) :
    ∃ c', p.resolve w = some c' ∧ Alike key c c' := by
  induction p generalizing v w with
  | nil =>
    cases hc
    exact ⟨w, rfl, h⟩
  | cons token p ih =>
    obtain ⟨d, hd, hc⟩ := Option.bind_eq_some_iff.mp hc
    obtain ⟨d', hd', heq⟩ := h.child hkey hd
    obtain ⟨c', hc', halike⟩ := ih (Alike.of_forgetAt heq) hc
    exact ⟨c', by rw [Pointer.resolve_cons, hd']; exact hc', halike⟩

theorem forgetMembers_set {key token : String} {c c' : Value} {members : List (String × Value)}
    (hc : SortedMap.get token members = some c) (h : forgetAt key token c = forgetAt key token c') :
    forgetMembers key (SortedMap.set token c' members) = forgetMembers key members := by
  induction members with
  | nil => cases hc
  | cons e members ih =>
    obtain ⟨name, value⟩ := e
    rw [SortedMap.get_cons] at hc
    by_cases hname : name = token
    · subst hname
      rw [if_pos rfl, Option.some.injEq] at hc
      subst hc
      rw [SortedMap.set, if_pos rfl, forgetMembers_eq, forgetMembers_eq, List.map_cons,
        List.map_cons, h]
    · rw [if_neg hname] at hc
      rw [SortedMap.set, if_neg hname, forgetMembers, forgetMembers, ih hc]

theorem forget_setChild {key token : String} (hkey : Token.toNumeral key = none) {v c c' : Value}
    (hc : v.child token = some c) (h : forgetAt key token c = forgetAt key token c') :
    forget key (v.setChild token c') = forget key v := by
  cases v with
  | object members =>
    rw [setChild, forget, forget, forgetMembers_set hc h]
  | array items =>
    simp only [child, Option.bind_eq_some_iff] at hc
    obtain ⟨i, hi, hc⟩ := hc
    have hne := indexFor_ne hkey hi
    rw [forgetAt_of_ne hne, forgetAt_of_ne hne] at h
    simp only [setChild, hi, forget, forgetItems_eq]
    refine congrArg Value.array (List.ext_getElem? fun j => ?_)
    rw [List.getElem?_map, List.getElem?_map, List.getElem?_set]
    by_cases hij : i = j
    · subst hij
      obtain ⟨hlt, heq⟩ := List.getElem?_eq_some_iff.mp hc
      simp [hlt, heq, h]
    · rw [if_neg hij]
  | _ => cases hc

/-- A text under the key is written over. -/
theorem forget_modify {key : String} (hkey : Token.toNumeral key = none) {p : Pointer} {v w : Value}
    {text text' : String} (h : (p ++ [key]).modify (fun _ => some (.string text')) v = some w)
    (hv : (p ++ [key]).resolve v = some (.string text)) : forget key w = forget key v := by
  induction p generalizing v w with
  | nil =>
    obtain ⟨c, c', hc, hmodify, rfl⟩ := Pointer.modify_cons_eq_some h
    obtain rfl : Value.string text' = c' := Option.some.inj hmodify
    obtain rfl : c = .string text := by
      rw [List.nil_append, Pointer.resolve_cons, hc] at hv
      exact Option.some.inj hv
    exact forget_setChild hkey hc (by simp [forgetAt, isString])
  | cons token p ih =>
    obtain ⟨c, c', hc, hmodify, rfl⟩ := Pointer.modify_cons_eq_some h
    rw [List.cons_append, Pointer.resolve_cons, hc] at hv
    have hforget := ih hmodify hv
    refine forget_setChild hkey hc ?_
    have hstring : c'.isString = c.isString := by
      rw [← isString_forget key c', hforget, isString_forget]
    rw [forgetAt, forgetAt, hstring, hforget]

end Value

end Schemaform
