import Schemaform.Json.Resolve

/-!
# Json.Equal

Semantic equality of JSON values: numbers by their normal form, arrays item by item, objects
member by member.

* `numberNormalForm`, `numbersEqual`, `jsonValuesEqual`, `preserveSemanticallyEqualValues`.
* `jsonValuesEqual_refl`, `_symm`, `_trans`: an equivalence on well-formed values.
* `resolve_congr`: semantically equal values resolve every pointer alike.
-/

namespace Schemaform

/-! ## Numbers -/

structure NumberNormalForm where
  negative : Bool
  significantDigits : List Char
  scale : Int
deriving DecidableEq, Repr

def splitExponent (unsigned : List Char) : List Char × List Char :=
  let significand := unsigned.takeWhile fun c => c ≠ 'e' ∧ c ≠ 'E'
  match unsigned.drop significand.length with
  | [] => (unsigned, ['0'])
  | _ :: exponent => (significand, exponent)

def splitFraction (significand : List Char) : List Char × List Char :=
  let whole := significand.takeWhile (· ≠ '.')
  match significand.drop whole.length with
  | [] => (significand, [])
  | _ :: fraction => (whole, fraction)

def parseDigits (cs : List Char) : Option Nat :=
  if cs ≠ [] ∧ cs.all Char.isDigit then some (Nat.ofDigitChars 10 cs 0) else none

/-- A decimal integer with an optional sign, of any size. -/
def parseBigInt : List Char → Option Int
  | '-' :: cs => (parseDigits cs).map fun n => -(n : Int)
  | '+' :: cs => (parseDigits cs).map fun n => (n : Int)
  | cs => (parseDigits cs).map fun n => (n : Int)

def stripMinus : List Char → Bool × List Char
  | '-' :: unsigned => (true, unsigned)
  | unsigned => (false, unsigned)

def numberNormalForm (input : String) : Option NumberNormalForm :=
  let (negative, unsigned) := stripMinus input.toList
  let (significand, exponent) := splitExponent unsigned
  (parseBigInt exponent).map fun exponent =>
    let (whole, fraction) := splitFraction significand
    let digits := whole ++ fraction
    if digits.all (· == '0') then ⟨false, ['0'], 0⟩
    else
      let digits := digits.dropWhile (· == '0')
      let trailingZeros := (digits.reverse.takeWhile (· == '0')).length
      ⟨negative, digits.take (digits.length - trailingZeros),
        exponent - fraction.length + trailingZeros⟩

def numberIsInteger (input : String) : Bool :=
  (numberNormalForm input).any fun normal => decide (0 ≤ normal.scale)

example : numberNormalForm "-12.50e+3" = some ⟨true, "125".toList, 2⟩ := by decide
example : numberIsInteger "1.5e1" = true := by decide

def numbersEqual (left right : Value) : Bool :=
  left == right ||
  match left, right with
  | .number left, .number right =>
    match numberNormalForm left, numberNormalForm right with
    | some left, some right => left == right
    | _, _ => false
  | _, _ => false

theorem numbersEqual_number {l r : String} :
    numbersEqual (.number l) (.number r) = true ↔
      l = r ∨ ∃ n, numberNormalForm l = some n ∧ numberNormalForm r = some n := by
  simp only [numbersEqual, Bool.or_eq_true, beq_iff_eq, Value.number.injEq]
  refine or_congr_right ?_
  cases numberNormalForm l with
  | none => simp
  | some l =>
    cases numberNormalForm r with
    | none => simp
    | some r => simp only [beq_iff_eq, Option.some.injEq, exists_eq_left']; exact eq_comm

theorem numbersEqual_symm {l r : String} (h : numbersEqual (.number l) (.number r) = true) :
    numbersEqual (.number r) (.number l) = true := by
  rw [numbersEqual_number] at h ⊢
  rcases h with rfl | ⟨n, hl, hr⟩
  · exact .inl rfl
  · exact .inr ⟨n, hr, hl⟩

theorem numbersEqual_trans {l m r : String} (h₁ : numbersEqual (.number l) (.number m) = true)
    (h₂ : numbersEqual (.number m) (.number r) = true) :
    numbersEqual (.number l) (.number r) = true := by
  rw [numbersEqual_number] at *
  rcases h₁ with rfl | ⟨n, hl, hm⟩
  · exact h₂
  · rcases h₂ with rfl | ⟨n', hm', hr⟩
    · exact .inr ⟨n, hl, hm⟩
    · rw [hm] at hm'
      cases hm'
      exact .inr ⟨n, hl, hr⟩

/-! ## Values -/

mutual

def jsonValuesEqual (left right : Value) : Bool :=
  left == right ||
  match left, right with
  | .number left, .number right => numbersEqual (.number left) (.number right)
  | .array left, .array right => left.length == right.length && jsonItemsEqual left right
  | .object left, .object right => left.length == right.length && jsonMembersEqual left right
  | _, _ => false

/-- `left.iter().zip(right).all(..)` -/
def jsonItemsEqual : List Value → List Value → Bool
  | left :: ls, right :: rs => jsonValuesEqual left right && jsonItemsEqual ls rs
  | _, _ => true

/-- `left.iter().all(|(key, left)| right.get(key).is_some_and(..))` -/
def jsonMembersEqual : List (String × Value) → List (String × Value) → Bool
  | [], _ => true
  | (key, left) :: ls, rs =>
    (match SortedMap.get key rs with
      | some right => jsonValuesEqual left right
      | none => false) && jsonMembersEqual ls rs

end

mutual

/-- The candidate with every part that is semantically equal to the current one spelled as the
current one is. -/
def preserveSemanticallyEqualValues (current candidate : Value) : Value :=
  if jsonValuesEqual current candidate then current
  else
    match current, candidate with
    | .array current, .array candidate => .array (preserveItems current candidate)
    | .object current, .object candidate => .object (preserveMembers current candidate)
    | _, candidate => candidate

def preserveItems : List Value → List Value → List Value
  | current :: cs, candidate :: ds =>
    preserveSemanticallyEqualValues current candidate :: preserveItems cs ds
  | _, candidate => candidate

def preserveMembers : List (String × Value) → List (String × Value) → List (String × Value)
  | [], candidate => candidate
  | (key, current) :: cs, candidate =>
    preserveMembers cs <|
      match SortedMap.get key candidate with
      | some v => SortedMap.set key (preserveSemanticallyEqualValues current v) candidate
      | none => candidate

end

/-- The same value, or values of one kind that are equal part by part. -/
theorem jsonValuesEqual_iff {left right : Value} : jsonValuesEqual left right = true ↔
    left = right ∨ match left, right with
      | .number left, .number right => numbersEqual (.number left) (.number right) = true
      | .array left, .array right => left.length = right.length ∧ jsonItemsEqual left right = true
      | .object left, .object right =>
        left.length = right.length ∧ jsonMembersEqual left right = true
      | _, _ => False := by
  unfold jsonValuesEqual
  rw [Bool.or_eq_true, beq_iff_eq]
  refine or_congr_right ?_
  cases left <;> cases right <;> simp only [Bool.and_eq_true, beq_iff_eq, Bool.false_eq_true]

theorem jsonItemsEqual_cons {left right : Value} {ls rs : List Value} :
    jsonItemsEqual (left :: ls) (right :: rs) =
      (jsonValuesEqual left right && jsonItemsEqual ls rs) := rfl

theorem jsonMembersEqual_cons {key : String} {left : Value} {ls rs : List (String × Value)} :
    jsonMembersEqual ((key, left) :: ls) rs =
      ((match SortedMap.get key rs with
        | some right => jsonValuesEqual left right
        | none => false) && jsonMembersEqual ls rs) := rfl

@[simp] theorem jsonValuesEqual_refl (v : Value) : jsonValuesEqual v v = true :=
  jsonValuesEqual_iff.mpr (.inl rfl)

theorem jsonItemsEqual_iff {l r : List Value} (hlen : l.length = r.length) :
    jsonItemsEqual l r = true ↔ List.Forall₂ (fun a b => jsonValuesEqual a b = true) l r := by
  induction l generalizing r with
  | nil =>
    cases r with
    | nil => exact ⟨fun _ => .nil, fun _ => rfl⟩
    | cons b r => cases hlen
  | cons a l ih =>
    cases r with
    | nil => cases hlen
    | cons b r =>
      simp only [jsonItemsEqual_cons, Bool.and_eq_true, List.forall₂_cons]
      exact and_congr_right fun _ => ih (by simpa using hlen)

theorem jsonMembersEqual_iff {l r : List (String × Value)} :
    jsonMembersEqual l r = true ↔
      ∀ e ∈ l, ∃ w, SortedMap.get e.1 r = some w ∧ jsonValuesEqual e.2 w = true := by
  induction l with
  | nil => exact ⟨fun _ e he => absurd he List.not_mem_nil, fun _ => rfl⟩
  | cons e l ih =>
    obtain ⟨k, v⟩ := e
    simp only [jsonMembersEqual_cons, Bool.and_eq_true, List.forall_mem_cons, ih]
    refine and_congr_left fun _ => ?_
    cases SortedMap.get k r <;> simp

theorem forall₂_refl (l : List Value) :
    List.Forall₂ (fun a b => jsonValuesEqual a b = true) l l :=
  List.forall₂_same.mpr fun a _ => jsonValuesEqual_refl a

theorem jsonValuesEqual_array {l r : List Value} :
    jsonValuesEqual (.array l) (.array r) = true ↔
      List.Forall₂ (fun a b => jsonValuesEqual a b = true) l r := by
  rw [jsonValuesEqual_iff, Value.array.injEq]
  constructor
  · rintro (rfl | ⟨hlen, h⟩)
    · exact forall₂_refl l
    · exact (jsonItemsEqual_iff hlen).mp h
  · intro h
    exact .inr ⟨h.length_eq, (jsonItemsEqual_iff h.length_eq).mpr h⟩

theorem jsonValuesEqual_number {l r : String} :
    jsonValuesEqual (.number l) (.number r) = true ↔
      numbersEqual (.number l) (.number r) = true := by
  rw [jsonValuesEqual_iff, Value.number.injEq]
  exact ⟨fun h => h.elim (fun h => numbersEqual_number.mpr (.inl h)) id, .inr⟩

abbrev MembersEqual (l r : List (String × Value)) : Prop :=
  List.Forall₂ (fun a b => a.1 = b.1 ∧ jsonValuesEqual a.2 b.2 = true) l r

theorem jsonValuesEqual_object {l r : List (String × Value)} (hl : SortedMap.Sorted l)
    (hr : SortedMap.Sorted r) :
    jsonValuesEqual (.object l) (.object r) = true ↔ MembersEqual l r := by
  rw [jsonValuesEqual_iff, Value.object.injEq]
  constructor
  · rintro (rfl | ⟨hlen, h⟩)
    · exact List.forall₂_same.mpr fun a _ => ⟨rfl, jsonValuesEqual_refl a.2⟩
    · exact SortedMap.forall₂_of_get (P := fun a b => jsonValuesEqual a b = true) hl hr hlen
        (jsonMembersEqual_iff.mp h)
  · intro h
    refine .inr ⟨h.length_eq, jsonMembersEqual_iff.mpr fun e he => ?_⟩
    have hget := SortedMap.get_of_forall₂ (P := fun a b => jsonValuesEqual a b = true) h e.1
    rw [SortedMap.get_of_mem hl he] at hget
    cases hw : SortedMap.get e.1 r with
    | none => rw [hw] at hget; cases hget
    | some w => rw [hw] at hget; cases hget with | some h => exact ⟨w, rfl, h⟩

/-! ## An equivalence -/

theorem forall₂_symm {α : Type} {R : α → α → Prop} {l r : List α}
    (h : ∀ a ∈ l, ∀ b ∈ r, R a b → R b a) (hlr : List.Forall₂ R l r) : List.Forall₂ R r l := by
  induction hlr with
  | nil => exact .nil
  | cons hab _ ih =>
    refine .cons (h _ List.mem_cons_self _ List.mem_cons_self hab) (ih fun a ha b hb => ?_)
    exact h a (List.mem_cons_of_mem _ ha) b (List.mem_cons_of_mem _ hb)

theorem forall₂_trans {α : Type} {R : α → α → Prop} {l m r : List α}
    (h : ∀ a ∈ l, ∀ b ∈ m, ∀ c ∈ r, R a b → R b c → R a c) (hlm : List.Forall₂ R l m)
    (hmr : List.Forall₂ R m r) : List.Forall₂ R l r := by
  induction hlm generalizing r with
  | nil => cases hmr; exact .nil
  | cons hab _ ih =>
    cases hmr with
    | cons hbc hmr =>
      refine .cons (h _ List.mem_cons_self _ List.mem_cons_self _ List.mem_cons_self hab hbc)
        (ih (fun a ha b hb c hc => ?_) hmr)
      exact h a (List.mem_cons_of_mem _ ha) b (List.mem_cons_of_mem _ hb) c
        (List.mem_cons_of_mem _ hc)

theorem jsonValuesEqual_array_left {items : List Value} {b : Value}
    (h : jsonValuesEqual (.array items) b = true) : ∃ items', b = .array items' := by
  cases b with
  | array items' => exact ⟨items', rfl⟩
  | _ => simp [jsonValuesEqual_iff] at h

theorem jsonValuesEqual_object_left {members : List (String × Value)} {b : Value}
    (h : jsonValuesEqual (.object members) b = true) : ∃ members', b = .object members' := by
  cases b with
  | object members' => exact ⟨members', rfl⟩
  | _ => simp [jsonValuesEqual_iff] at h

theorem jsonValuesEqual_number_left {l : String} {b : Value}
    (h : jsonValuesEqual (.number l) b = true) : ∃ r, b = .number r := by
  cases b with
  | number r => exact ⟨r, rfl⟩
  | _ => simp [jsonValuesEqual_iff] at h

theorem jsonValuesEqual_string {v : Value} {s : String}
    (h : jsonValuesEqual v (.string s) = true) : v = .string s := by
  cases v with
  | string t => simpa [jsonValuesEqual_iff] using h
  | _ => simp [jsonValuesEqual_iff] at h

theorem numbersEqual_of_jsonValuesEqual {v : Value} {s : String}
    (h : jsonValuesEqual v (.number s) = true) : numbersEqual v (.number s) = true := by
  cases v with
  | number t => exact jsonValuesEqual_number.mp h
  | _ => simp [jsonValuesEqual_iff] at h

theorem jsonValuesEqual_of_numbersEqual {v : Value} {s : String}
    (h : numbersEqual v (.number s) = true) : jsonValuesEqual (.number s) v = true := by
  cases v with
  | number t => exact jsonValuesEqual_number.mpr (numbersEqual_symm h)
  | _ => simp [numbersEqual] at h

theorem jsonValuesEqual_symm {a b : Value} (ha : a.WF) (hb : b.WF)
    (h : jsonValuesEqual a b = true) : jsonValuesEqual b a = true := by
  induction a using Value.induct generalizing b with
  | number l =>
    obtain ⟨r, rfl⟩ := jsonValuesEqual_number_left h
    exact jsonValuesEqual_number.mpr (numbersEqual_symm (jsonValuesEqual_number.mp h))
  | array l ih =>
    obtain ⟨r, rfl⟩ := jsonValuesEqual_array_left h
    have ha := Value.wf_array.mp ha
    have hb := Value.wf_array.mp hb
    refine jsonValuesEqual_array.mpr (forall₂_symm ?_ (jsonValuesEqual_array.mp h))
    exact fun u hu w hw => ih u hu (ha u hu) (hb w hw)
  | object l ih =>
    obtain ⟨r, rfl⟩ := jsonValuesEqual_object_left h
    obtain ⟨hl, ha⟩ := Value.wf_object.mp ha
    obtain ⟨hr, hb⟩ := Value.wf_object.mp hb
    rw [jsonValuesEqual_object hl hr] at h
    refine (jsonValuesEqual_object hr hl).mpr (forall₂_symm ?_ h)
    exact fun u hu w hw huw => ⟨huw.1.symm, ih u hu (ha u hu) (hb w hw) huw.2⟩
  | _ => cases b <;> simp_all [jsonValuesEqual_iff]

theorem jsonValuesEqual_trans {a b c : Value} (ha : a.WF) (hb : b.WF) (hc : c.WF)
    (h₁ : jsonValuesEqual a b = true) (h₂ : jsonValuesEqual b c = true) :
    jsonValuesEqual a c = true := by
  induction a using Value.induct generalizing b c with
  | number l =>
    obtain ⟨m, rfl⟩ := jsonValuesEqual_number_left h₁
    obtain ⟨r, rfl⟩ := jsonValuesEqual_number_left h₂
    rw [jsonValuesEqual_number] at *
    exact numbersEqual_trans h₁ h₂
  | array l ih =>
    obtain ⟨m, rfl⟩ := jsonValuesEqual_array_left h₁
    obtain ⟨r, rfl⟩ := jsonValuesEqual_array_left h₂
    have ha := Value.wf_array.mp ha
    have hb := Value.wf_array.mp hb
    have hc := Value.wf_array.mp hc
    rw [jsonValuesEqual_array] at *
    exact forall₂_trans
      (fun u hu v hv w hw => ih u hu (ha u hu) (hb v hv) (hc w hw)) h₁ h₂
  | object l ih =>
    obtain ⟨m, rfl⟩ := jsonValuesEqual_object_left h₁
    obtain ⟨r, rfl⟩ := jsonValuesEqual_object_left h₂
    obtain ⟨hl, ha⟩ := Value.wf_object.mp ha
    obtain ⟨hm, hb⟩ := Value.wf_object.mp hb
    obtain ⟨hr, hc⟩ := Value.wf_object.mp hc
    rw [jsonValuesEqual_object hl hm] at h₁
    rw [jsonValuesEqual_object hm hr] at h₂
    rw [jsonValuesEqual_object hl hr]
    refine forall₂_trans (fun u hu v hv w hw huv hvw => ?_) h₁ h₂
    exact ⟨huv.1.trans hvw.1, ih u hu (ha u hu) (hb v hv) (hc w hw) huv.2 hvw.2⟩
  | _ => cases b <;> simp_all [jsonValuesEqual_iff]

/-! ## Congruence -/

/-- Absent together, or present and semantically equal. -/
abbrev SameValue (a b : Option Value) : Prop :=
  Option.Rel (fun a b => jsonValuesEqual a b = true) a b

theorem child_congr {a b : Value} (ha : a.WF) (hb : b.WF) (h : jsonValuesEqual a b = true)
    (token : String) : SameValue (a.child token) (b.child token) := by
  cases a with
  | array l =>
    obtain ⟨r, rfl⟩ := jsonValuesEqual_array_left h
    have hf := jsonValuesEqual_array.mp h
    simp only [Value.child, hf.length_eq]
    cases hi : Token.indexFor token r.length with
    | none => exact .none
    | some i =>
      have hlt := (Token.indexFor_eq_some.mp hi).2
      have hlt' : i < l.length := hf.length_eq ▸ hlt
      simp only [Option.bind_some, List.getElem?_eq_getElem hlt, List.getElem?_eq_getElem hlt']
      exact .some (hf.get hlt' hlt)
  | object l =>
    obtain ⟨r, rfl⟩ := jsonValuesEqual_object_left h
    exact SortedMap.get_of_forall₂ (P := fun a b => jsonValuesEqual a b = true)
      ((jsonValuesEqual_object (Value.wf_object.mp ha).1 (Value.wf_object.mp hb).1).mp h) token
  | number l =>
    obtain ⟨r, rfl⟩ := jsonValuesEqual_number_left h
    exact .none
  | _ =>
    cases b with
    | null => exact .none
    | bool b => exact .none
    | string s => exact .none
    | number r => exact .none
    | _ => simp [jsonValuesEqual_iff] at h

/-- Semantically equal values resolve every pointer alike. -/
theorem resolve_congr {a b : Value} (ha : a.WF) (hb : b.WF) (h : jsonValuesEqual a b = true)
    (p : Pointer) : SameValue (Pointer.resolve p a) (Pointer.resolve p b) := by
  induction p generalizing a b with
  | nil => exact .some h
  | cons t p ih =>
    rw [Pointer.resolve_cons, Pointer.resolve_cons]
    have hc := child_congr ha hb h t
    cases hca : a.child t with
    | none =>
      rw [hca] at hc
      cases hcb : b.child t with
      | none => exact .none
      | some d => rw [hcb] at hc; cases hc
    | some c =>
      rw [hca] at hc
      cases hcb : b.child t with
      | none => rw [hcb] at hc; cases hc
      | some d =>
        rw [hcb] at hc
        cases hc with
        | some hcd => exact ih (ha.child hca) (hb.child hcb) hcd

end Schemaform
