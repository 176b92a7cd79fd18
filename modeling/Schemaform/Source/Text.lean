import Mathlib.Data.Char
import Schemaform.Json.Size

/-!
# Source.Text

JSON texts as syntax trees: the bytes of a text and the value it is parsed to.

* `StringPart`: a character of a string, plain or escaped; surrogates come in pairs.
* `Syntax`, `Item`, `Member`: values with the whitespace around them; a text is an `Item`.
* `Syntax.bytes`, `Syntax.value`: the last member of a key stays.
* `Syntax.KeysOnce`: no object repeats a key.
-/

namespace Schemaform.Source

/-! ## Characters -/

inductive Whitespace where
  | space
  | tab
  | lineFeed
  | carriageReturn
deriving DecidableEq, Repr

def Whitespace.byte : Whitespace → UInt8
  | .space => 0x20
  | .tab => 0x09
  | .lineFeed => 0x0A
  | .carriageReturn => 0x0D

structure HexDigit where
  value : Fin 16
  upper : Bool
deriving DecidableEq, Repr

def HexDigit.byte (digit : HexDigit) : UInt8 :=
  if digit.value.val < 10 then UInt8.ofNat (0x30 + digit.value)
  else if digit.upper then UInt8.ofNat (0x41 + (digit.value - 10))
  else UInt8.ofNat (0x61 + (digit.value - 10))

structure HexQuad where
  first : HexDigit
  second : HexDigit
  third : HexDigit
  fourth : HexDigit
deriving DecidableEq, Repr

def HexQuad.bytes (quad : HexQuad) : List UInt8 :=
  [quad.first.byte, quad.second.byte, quad.third.byte, quad.fourth.byte]

def HexQuad.code (quad : HexQuad) : Nat :=
  ((quad.first.value * 16 + quad.second.value) * 16 + quad.third.value) * 16 + quad.fourth.value

def IsHigh (code : Nat) : Prop := 0xD800 ≤ code ∧ code ≤ 0xDBFF

def IsLow (code : Nat) : Prop := 0xDC00 ≤ code ∧ code ≤ 0xDFFF

inductive ShortEscape where
  | quotationMark
  | reverseSolidus
  | solidus
  | backspace
  | formFeed
  | lineFeed
  | carriageReturn
  | tab
deriving DecidableEq, Repr

def ShortEscape.byte : ShortEscape → UInt8
  | .quotationMark => 0x22
  | .reverseSolidus => 0x5C
  | .solidus => 0x2F
  | .backspace => 0x62
  | .formFeed => 0x66
  | .lineFeed => 0x6E
  | .carriageReturn => 0x72
  | .tab => 0x74

def ShortEscape.char : ShortEscape → Char
  | .quotationMark => '"'
  | .reverseSolidus => '\\'
  | .solidus => '/'
  | .backspace => '\x08'
  | .formFeed => '\x0C'
  | .lineFeed => '\n'
  | .carriageReturn => '\r'
  | .tab => '\t'

inductive StringPart where
  | plain (c : Char) (unescaped : 0x20 ≤ c.toNat ∧ c ≠ '"' ∧ c ≠ '\\')
  | escape (name : ShortEscape)
  | unicode (quad : HexQuad) (scalar : ¬ IsHigh quad.code ∧ ¬ IsLow quad.code)
  | surrogates (high low : HexQuad) (isHigh : IsHigh high.code) (isLow : IsLow low.code)

namespace StringPart

def bytes : StringPart → List UInt8
  | plain c _ => String.utf8EncodeChar c
  | escape name => [0x5C, name.byte]
  | unicode quad _ => 0x5C :: 0x75 :: quad.bytes
  | surrogates high low _ _ => 0x5C :: 0x75 :: (high.bytes ++ 0x5C :: 0x75 :: low.bytes)

def char : StringPart → Char
  | plain c _ => c
  | escape name => name.char
  | unicode quad _ => Char.ofNat quad.code
  | surrogates high low _ _ =>
    Char.ofNat (0x10000 + (high.code - 0xD800) * 0x400 + (low.code - 0xDC00))

end StringPart

def stringBytes (parts : List StringPart) : List UInt8 := parts.flatMap StringPart.bytes

def stringText (parts : List StringPart) : String := String.ofList (parts.map StringPart.char)

/-! ## Values -/

structure Item (ε : Type) where
  before : List Whitespace
  inner : ε
  after : List Whitespace

structure Member (ε : Type) where
  before : List Whitespace
  key : List StringPart
  between : List Whitespace
  item : Item ε

inductive Syntax where
  | null
  | boolean (value : Bool)
  | number (literal : String) (grammar : isNumberLiteral literal = true)
  | string (parts : List StringPart)
  | array (space : List Whitespace) (items : List (Item Syntax))
  | object (space : List Whitespace) (members : List (Member Syntax))

/-- Induction with one hypothesis for the values right below. -/
theorem Syntax.induct {P : Syntax → Prop} (null : P .null) (boolean : ∀ b, P (.boolean b))
    (number : ∀ literal h, P (.number literal h)) (string : ∀ parts, P (.string parts))
    (array : ∀ space items, (∀ item ∈ items, P item.inner) → P (.array space items))
    (object : ∀ space members, (∀ member ∈ members, P member.item.inner) →
      P (.object space members)) (s : Syntax) : P s := by
  refine @Syntax.rec P (fun items => ∀ item ∈ items, P item.inner)
    (fun members => ∀ member ∈ members, P member.item.inner) (fun item => P item.inner)
    (fun member => P member.item.inner) null boolean number string array object ?_ ?_ ?_ ?_
    (fun _ _ _ h => h) (fun _ _ _ _ h => h) s
  · exact fun _ h => absurd h List.not_mem_nil
  · intro item items hitem hitems
    exact List.forall_mem_cons.mpr ⟨hitem, hitems⟩
  · exact fun _ h => absurd h List.not_mem_nil
  · intro member members hmember hmembers
    exact List.forall_mem_cons.mpr ⟨hmember, hmembers⟩

def spaceBytes (space : List Whitespace) : List UInt8 := space.map Whitespace.byte

mutual

def Syntax.bytes : Syntax → List UInt8
  | .null => [0x6E, 0x75, 0x6C, 0x6C]
  | .boolean true => [0x74, 0x72, 0x75, 0x65]
  | .boolean false => [0x66, 0x61, 0x6C, 0x73, 0x65]
  | .number literal _ => literal.toList.flatMap String.utf8EncodeChar
  | .string parts => 0x22 :: (stringBytes parts ++ [0x22])
  | .array space items => 0x5B :: (spaceBytes space ++ (itemsBytes items ++ [0x5D]))
  | .object space members => 0x7B :: (spaceBytes space ++ (membersBytes members ++ [0x7D]))

def Item.bytes : Item Syntax → List UInt8
  | ⟨before, inner, after⟩ => spaceBytes before ++ (Syntax.bytes inner ++ spaceBytes after)

def Member.bytes : Member Syntax → List UInt8
  | ⟨before, key, between, item⟩ =>
    spaceBytes before ++ (0x22 :: (stringBytes key ++ 0x22 :: (spaceBytes between ++
      0x3A :: Item.bytes item)))

/-- The items, a comma after each but the last. -/
def itemsBytes : List (Item Syntax) → List UInt8
  | [] => []
  | item :: items =>
    Item.bytes item ++ (if items.isEmpty then [] else 0x2C :: itemsBytes items)

def membersBytes : List (Member Syntax) → List UInt8
  | [] => []
  | member :: members =>
    Member.bytes member ++ (if members.isEmpty then [] else 0x2C :: membersBytes members)

end

mutual

/-- What the parser makes of a text. -/
def Syntax.value : Syntax → Value
  | .null => .null
  | .boolean b => .bool b
  | .number literal _ => .number literal
  | .string parts => .string (stringText parts)
  | .array _ items => .array (itemValues items)
  | .object _ members => .object (SortedMap.ofEntries (memberEntries members))

def Item.value : Item Syntax → Value
  | ⟨_, inner, _⟩ => Syntax.value inner

def Member.entry : Member Syntax → String × Value
  | ⟨_, key, _, item⟩ => (stringText key, Item.value item)

def itemValues : List (Item Syntax) → List Value
  | [] => []
  | item :: items => Item.value item :: itemValues items

def memberEntries : List (Member Syntax) → List (String × Value)
  | [] => []
  | member :: members => Member.entry member :: memberEntries members

end

mutual

def Syntax.KeysOnce : Syntax → Prop
  | .array _ items => ItemsKeysOnce items
  | .object _ members =>
    ((memberEntries members).map Prod.fst).Nodup ∧ MembersKeysOnce members
  | _ => True

def Item.KeysOnce : Item Syntax → Prop
  | ⟨_, inner, _⟩ => Syntax.KeysOnce inner

def Member.KeysOnce : Member Syntax → Prop
  | ⟨_, _, _, item⟩ => Item.KeysOnce item

def ItemsKeysOnce : List (Item Syntax) → Prop
  | [] => True
  | item :: items => Item.KeysOnce item ∧ ItemsKeysOnce items

def MembersKeysOnce : List (Member Syntax) → Prop
  | [] => True
  | member :: members => Member.KeysOnce member ∧ MembersKeysOnce members

end

end Schemaform.Source
