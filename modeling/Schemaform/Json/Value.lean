import Schemaform.Lib.SortedMap

/-!
# Json.Value

JSON values as `serde_json` holds them with arbitrary-precision numbers: a number is its literal
text, an object is an ordered map, so its entries stand in strictly increasing key order.

* `Value.beq`, `DecidableEq Value`: structural equality, the derived `PartialEq` of the source.
* `isNumberLiteral`: the JSON number grammar.
* `Value.wellFormed`: every object is sorted and every number is a literal of the grammar. The
  operations of the map library keep it.
-/

namespace Schemaform

inductive Value where
  | null
  | bool (b : Bool)
  | number (literal : String)
  | string (s : String)
  | array (items : List Value)
  | object (members : List (String × Value))
deriving Repr

namespace Value

mutual

def beq : Value → Value → Bool
  | .null, .null => true
  | .bool a, .bool b => a == b
  | .number a, .number b => a == b
  | .string a, .string b => a == b
  | .array a, .array b => beqItems a b
  | .object a, .object b => beqMembers a b
  | _, _ => false

def beqItems : List Value → List Value → Bool
  | [], [] => true
  | a :: as, b :: bs => beq a b && beqItems as bs
  | _, _ => false

def beqMembers : List (String × Value) → List (String × Value) → Bool
  | [], [] => true
  | (k, a) :: as, (l, b) :: bs => k == l && beq a b && beqMembers as bs
  | _, _ => false

end

mutual

theorem beq_iff : ∀ {a b : Value}, beq a b = true ↔ a = b := by
  intro a b
  cases a with
  | array a => cases b <;> simp [beq, beqItems_iff]
  | object a => cases b <;> simp [beq, beqMembers_iff]
  | _ => cases b <;> simp [beq]

theorem beqItems_iff : ∀ {a b : List Value}, beqItems a b = true ↔ a = b := by
  intro a b
  cases a with
  | nil => cases b <;> simp [beqItems]
  | cons a as => cases b <;> simp [beqItems, beq_iff, beqItems_iff]

theorem beqMembers_iff : ∀ {a b : List (String × Value)}, beqMembers a b = true ↔ a = b := by
  intro a b
  cases a with
  | nil => cases b <;> simp [beqMembers]
  | cons e as =>
    obtain ⟨k, a⟩ := e
    cases b with
    | nil => simp [beqMembers]
    | cons d bs => obtain ⟨l, b⟩ := d; simp [beqMembers, beq_iff, beqMembers_iff]

end

instance : DecidableEq Value := fun _ _ => decidable_of_iff _ beq_iff

/-- Induction with one hypothesis for all items and one for all members. -/
theorem induct {P : Value → Prop} (null : P .null) (bool : ∀ b, P (.bool b))
    (number : ∀ s, P (.number s)) (string : ∀ s, P (.string s))
    (array : ∀ items : List Value, (∀ v ∈ items, P v) → P (.array items))
    (object : ∀ members : List (String × Value), (∀ e ∈ members, P e.2) → P (.object members))
    (v : Value) : P v := by
  refine @Value.rec P (fun items => ∀ v ∈ items, P v) (fun members => ∀ e ∈ members, P e.2)
    (fun e => P e.2) null bool number string array object ?_ ?_ ?_ ?_ (fun _ _ h => h) v
  · intro v hv; cases hv
  · intro v vs hv hvs w hw
    rcases List.mem_cons.mp hw with rfl | hw
    · exact hv
    · exact hvs w hw
  · intro e he; cases he
  · intro e es he hes d hd
    rcases List.mem_cons.mp hd with rfl | hd
    · exact he
    · exact hes d hd

/-! ## Shapes -/

def isObject : Value → Bool
  | .object _ => true
  | _ => false

def isArray : Value → Bool
  | .array _ => true
  | _ => false

def isNull : Value → Bool
  | .null => true
  | _ => false

def isString : Value → Bool
  | .string _ => true
  | _ => false

def isNumber : Value → Bool
  | .number _ => true
  | _ => false

def isBoolean : Value → Bool
  | .bool _ => true
  | _ => false

/-- The member of an object. -/
def get (v : Value) (key : String) : Option Value :=
  match v with
  | .object members => SortedMap.get key members
  | _ => none

def asArray : Value → Option (List Value)
  | .array items => some items
  | _ => none

def asString : Value → Option String
  | .string s => some s
  | _ => none

def asNumber : Value → Option String
  | .number literal => some literal
  | _ => none

@[simp] theorem asArray_eq_some {v : Value} {items : List Value} :
    v.asArray = some items ↔ v = .array items := by
  cases v <;> simp [asArray]

theorem isArray_iff {v : Value} : v.isArray = true ↔ ∃ items, v = .array items := by
  cases v <;> simp [isArray]

theorem isObject_iff {v : Value} : v.isObject = true ↔ ∃ members, v = .object members := by
  cases v <;> simp [isObject]

end Value

/-! ## Number literals -/

/-- One or more digits, and what follows them. -/
def takeDigits (cs : List Char) : Option (List Char) :=
  match cs with
  | c :: rest => if c.isDigit then some (rest.dropWhile Char.isDigit) else none
  | [] => none

def dropExponent : List Char → Option (List Char)
  | [] => some []
  | c :: rest =>
    if c = 'e' ∨ c = 'E' then
      match rest with
      | '+' :: rest => takeDigits rest
      | '-' :: rest => takeDigits rest
      | rest => takeDigits rest
    else some (c :: rest)

def dropFraction : List Char → Option (List Char)
  | '.' :: rest => takeDigits rest
  | cs => some cs

/-- The integer part: a zero alone, or digits that do not begin with a zero. -/
def dropWhole : List Char → Option (List Char)
  | '0' :: rest => some rest
  | cs => takeDigits cs

/-- `-? int frac? exp?` with nothing left over. -/
def isNumberLiteralChars (cs : List Char) : Bool :=
  let unsigned := match cs with
    | '-' :: rest => rest
    | cs => cs
  ((dropWhole unsigned).bind dropFraction).bind dropExponent == some []

def isNumberLiteral (s : String) : Bool := isNumberLiteralChars s.toList

example : isNumberLiteral "-12.50e+3" = true := by decide
example : isNumberLiteral "01" = false := by decide

namespace Value

mutual

def wellFormed : Value → Bool
  | .number literal => isNumberLiteral literal
  | .array items => wellFormedItems items
  | .object members => decide (SortedMap.Sorted members) && wellFormedMembers members
  | _ => true

def wellFormedItems : List Value → Bool
  | [] => true
  | v :: vs => wellFormed v && wellFormedItems vs

def wellFormedMembers : List (String × Value) → Bool
  | [] => true
  | (_, v) :: vs => wellFormed v && wellFormedMembers vs

end

/-- What `serde_json` guarantees of every value: distinct ordered keys, grammatical numbers. -/
def WF (v : Value) : Prop := v.wellFormed = true

instance (v : Value) : Decidable v.WF := inferInstanceAs (Decidable (_ = true))

theorem wellFormedItems_iff {items : List Value} :
    wellFormedItems items = true ↔ ∀ v ∈ items, v.WF := by
  induction items with
  | nil => simp [wellFormedItems]
  | cons v vs ih => simp [wellFormedItems, ih, WF]

theorem wellFormedMembers_iff {members : List (String × Value)} :
    wellFormedMembers members = true ↔ ∀ e ∈ members, e.2.WF := by
  induction members with
  | nil => simp [wellFormedMembers]
  | cons e vs ih => obtain ⟨k, v⟩ := e; simp [wellFormedMembers, ih, WF]

theorem wf_array {items : List Value} : (Value.array items).WF ↔ ∀ v ∈ items, v.WF := by
  simp only [WF, wellFormed]
  exact wellFormedItems_iff

theorem wf_object {members : List (String × Value)} :
    (Value.object members).WF ↔ SortedMap.Sorted members ∧ ∀ e ∈ members, e.2.WF := by
  simp only [WF, wellFormed, Bool.and_eq_true, decide_eq_true_eq]
  exact and_congr_right fun _ => wellFormedMembers_iff

theorem WF.get {members : List (String × Value)} (h : (Value.object members).WF) {key : String}
    {v : Value} (hv : SortedMap.get key members = some v) : v.WF :=
  (wf_object.mp h).2 _ (SortedMap.mem_of_get hv)

theorem get_wf {v member : Value} {key : String} (h : v.WF) (hm : v.get key = some member) :
    member.WF := by
  cases v with
  | object members => exact h.get hm
  | _ => cases hm

theorem WF.insert {members : List (String × Value)} (h : (Value.object members).WF)
    (key : String) {v : Value} (hv : v.WF) : (Value.object (SortedMap.insert key v members)).WF := by
  obtain ⟨hs, hm⟩ := wf_object.mp h
  refine wf_object.mpr ⟨hs.insert key v, fun e he => ?_⟩
  rcases SortedMap.mem_insert he with rfl | he
  · exact hv
  · exact hm e he

theorem WF.set {members : List (String × Value)} (h : (Value.object members).WF)
    (key : String) {v : Value} (hv : v.WF) : (Value.object (SortedMap.set key v members)).WF := by
  obtain ⟨hs, hm⟩ := wf_object.mp h
  refine wf_object.mpr ⟨hs.set key v, fun e he => ?_⟩
  rcases SortedMap.mem_set he with he | he
  · exact he ▸ hv
  · exact hm e he

theorem WF.erase {members : List (String × Value)} (h : (Value.object members).WF)
    (key : String) : (Value.object (SortedMap.erase key members)).WF := by
  obtain ⟨hs, hm⟩ := wf_object.mp h
  exact wf_object.mpr ⟨hs.erase key, fun e he =>
    hm e ((SortedMap.erase_sublist key members).subset he)⟩

end Value

end Schemaform
