import Mathlib.Algebra.Group.Int.Defs
import Schemaform.Json.Equal

/-!
# Engine.Parse

Text input of number and integer controls.

* `JsonParser`: the library's parser of JSON texts.
* `parseNumber`, `parseIntegerWithLimit`: what a control stores for a text, or why it cannot.
-/

namespace Schemaform.Engine

inductive ParseBlocker where
  | invalidNumber
  | invalidInteger
  | resourceLimitExceeded
deriving DecidableEq, Repr

/-! ## The parser -/

def isJsonWhitespace (c : Char) : Bool := c == ' ' || c == '\n' || c == '\t' || c == '\r'

/-- Digits without a leading zero, a minus before all but zero. -/
structure IsIntegerText (negative : Bool) (digits : List Char) : Prop where
  ne_nil : digits ≠ []
  isDigits : ∀ c ∈ digits, c.isDigit = true
  leading : digits.head? = some '0' → digits = ['0'] ∧ negative = false

def integerText (negative : Bool) (digits : List Char) : List Char :=
  if negative then '-' :: digits else digits

/-- The text of one JSON object. -/
def IsObjectText (cs : List Char) : Prop := cs.head? = some '{' ∧ cs.getLast? = some '}'

/-- `serde_json::from_str` into a value, with numbers kept as texts (`arbitrary_precision`). -/
structure JsonParser where
  fromStr : String → Option Value
  wf : ∀ {text value}, fromStr text = some value → value.WF
  /-- White space around a text is skipped. -/
  space : ∀ {before cs after : List Char}, (∀ c ∈ before ++ after, isJsonWhitespace c = true) →
    fromStr (String.ofList (before ++ cs ++ after)) = fromStr (String.ofList cs)
  /-- The numbers of the grammar are read as numbers, however they are spelled afterwards. -/
  number : ∀ {literal}, isNumberLiteral literal = true →
    ∃ stored, fromStr literal = some (.number stored)
  /-- An integer without an exponent keeps its spelling. -/
  integer : ∀ {negative digits}, IsIntegerText negative digits →
    fromStr (String.ofList (integerText negative digits)) =
      some (.number (String.ofList (integerText negative digits)))
  /-- Besides numbers of the grammar, a number may be read from the private object that stands for
  one where numbers are texts. -/
  numberFrom : ∀ {text stored}, fromStr text = some (.number stored) →
    ∃ before cs after, text.toList = before ++ cs ++ after ∧
      (∀ c ∈ before ++ after, isJsonWhitespace c = true) ∧
      (isNumberLiteralChars cs = true ∨ IsObjectText cs)

/-- What the texts of number controls are read with. -/
structure NumberInput where
  parser : JsonParser
  maximumDigits : Nat

/-! ## Text -/

def parseNumber (parser : JsonParser) (input : String) : Except ParseBlocker Value :=
  match parser.fromStr input with
  | some (.number literal) => .ok (.number literal)
  | _ => .error .invalidNumber

/-- `char::is_whitespace`: the Unicode property `White_Space`. -/
def isWhitespace (c : Char) : Bool :=
  let n := c.toNat
  (0x9 ≤ n && n ≤ 0xD) || n == 0x20 || n == 0x85 || n == 0xA0 || n == 0x1680 ||
    (0x2000 ≤ n && n ≤ 0x200A) || n == 0x2028 || n == 0x2029 || n == 0x202F || n == 0x205F ||
    n == 0x3000

def trimBy (p : Char → Bool) (cs : List Char) : List Char :=
  ((cs.dropWhile p).reverse.dropWhile p).reverse

def trim (input : String) : List Char := trimBy isWhitespace input.toList

def isI64 (n : Int) : Bool := decide (-(2 ^ 63) ≤ n ∧ n < 2 ^ 63)

/-- The exponent as a machine word, and which blocker an exponent that does not fit is. -/
def parseExponent (exponent : List Char) : Except ParseBlocker Int :=
  match (parseBigInt exponent).filter isI64 with
  | some n => .ok n
  | none =>
    .error (if exponent.head? = some '-' then .invalidInteger else .resourceLimitExceeded)

/-- Lengths are counted in characters, which are bytes in every text that is read as a number. -/
def canonicalIntegerWithLimit (input : List Char) (maximumDigits : Nat) :
    Except ParseBlocker (List Char) := do
  let (negative, unsigned) := stripMinus input
  let (significand, exponent) := splitExponent unsigned
  let (whole, fraction) := splitFraction significand
  let digits := whole ++ fraction
  if digits.all (· == '0') then
    if maximumDigits = 0 then throw .resourceLimitExceeded else return ['0']
  let digits := digits.dropWhile (· == '0')
  let exponent ← parseExponent exponent
  let shift := exponent - fraction.length
  if !isI64 shift then
    throw (if exponent < 0 then .invalidInteger else .resourceLimitExceeded)
  let digits ←
    if 0 ≤ shift then
      if digits.length + shift.toNat > maximumDigits then throw .resourceLimitExceeded
      else pure (digits ++ List.replicate shift.toNat '0')
    else
      let removed := shift.natAbs
      if removed ≥ digits.length then throw .invalidInteger
      else
        let split := digits.length - removed
        if !(digits.drop split).all (· == '0') then throw .invalidInteger
        else pure (digits.take split)
  if digits.length > maximumDigits then throw .resourceLimitExceeded
  let canonicalDigits := digits.dropWhile (· == '0')
  if canonicalDigits = [] then return ['0']
  return if negative then '-' :: canonicalDigits else canonicalDigits

def parseIntegerWithLimit (parser : JsonParser) (input : String) (maximumDigits : Nat) :
    Except ParseBlocker Value :=
  match parser.fromStr input with
  | some (.number _) => do
    let canonical ← canonicalIntegerWithLimit (trim input) maximumDigits
    match parser.fromStr (String.ofList canonical) with
    | some value => .ok value
    | none => .error .invalidInteger
  | _ => .error .invalidInteger

theorem parseNumber_number {parser : JsonParser} {input : String} {v : Value}
    (h : parseNumber parser input = .ok v) : ∃ literal, v = .number literal ∧ v.WF := by
  unfold parseNumber at h
  split at h
  · rename_i literal hread
    cases h
    exact ⟨literal, rfl, parser.wf hread⟩
  · cases h

theorem parseIntegerWithLimit_ok {parser : JsonParser} {input : String} {maximumDigits : Nat}
    {v : Value} (h : parseIntegerWithLimit parser input maximumDigits = .ok v) :
    ∃ stored canonical, parser.fromStr input = some (.number stored) ∧
      canonicalIntegerWithLimit (trim input) maximumDigits = .ok canonical ∧
      parser.fromStr (String.ofList canonical) = some v := by
  unfold parseIntegerWithLimit at h
  split at h
  · rename_i stored hs
    cases hc : canonicalIntegerWithLimit (trim input) maximumDigits with
    | error e =>
      rw [hc] at h
      cases h
    | ok canonical =>
      rw [hc] at h
      simp only [bind, Except.bind] at h
      split at h
      · rename_i value hv
        cases h
        exact ⟨stored, canonical, hs, rfl, hv⟩
      · cases h
  · cases h

end Schemaform.Engine
