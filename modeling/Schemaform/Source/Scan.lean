import Mathlib.Data.Char
import Schemaform.Json.Size
import Schemaform.Limits

/-!
# Source.Scan

The scans of a JSON document before and after it is parsed.

* `sourceMetrics`, `sourceValueMetrics`: the bytes of a document, by position. A byte is read
  under the bound its loop checks; a slice out of range is a panic, `none`.
* `jsonStringDecodedLen`, `parseHexQuad`: the length of a string literal without its escapes.
* `checkInputSource`: the limits on a document before it is parsed.
* `valueMetrics`: the measures of a parsed value, given up on below the depth limit.
-/

namespace Schemaform.Source

/-! ## Bytes -/

/-- `bytes.get(start..stop)` -/
def slice? (bytes : List UInt8) (start stop : Nat) : Option (List UInt8) :=
  if start ≤ stop ∧ stop ≤ bytes.length then some ((bytes.drop start).take (stop - start)) else none

def isDelimiter (byte : UInt8) : Bool :=
  byte == 0x20 || byte == 0x0A || byte == 0x0D || byte == 0x09 || byte == 0x2C || byte == 0x5D ||
    byte == 0x7D

def isAsciiAlphabetic (byte : UInt8) : Bool :=
  decide (0x41 ≤ byte ∧ byte ≤ 0x5A ∨ 0x61 ≤ byte ∧ byte ≤ 0x7A)

def isAsciiWhitespace (byte : UInt8) : Bool :=
  byte == 0x20 || byte == 0x09 || byte == 0x0A || byte == 0x0C || byte == 0x0D

def isOpen (byte : UInt8) : Bool := byte == 0x7B || byte == 0x5B

def isClose (byte : UInt8) : Bool := byte == 0x7D || byte == 0x5D

def startsNumber (byte : UInt8) : Bool := byte == 0x2D || decide (0x30 ≤ byte ∧ byte ≤ 0x39)

def startsLiteral (byte : UInt8) : Bool := byte == 0x74 || byte == 0x66 || byte == 0x6E

/-- `while index < bytes.len() && keep(bytes[index])` -/
def skipWhile (keep : UInt8 → Bool) (bytes : List UInt8) (index : Nat) : Nat :=
  if h : index < bytes.length then
    if keep bytes[index] then skipWhile keep bytes (index + 1) else index
  else index
termination_by bytes.length - index

/-- The closing quote of a string, or the end of the document. -/
def stringEnd (bytes : List UInt8) (index : Nat) : Nat :=
  if h : index < bytes.length then
    if bytes[index] = 0x5C then stringEnd bytes (min (index + 2) bytes.length)
    else if bytes[index] = 0x22 then index
    else stringEnd bytes (index + 1)
  else index
termination_by bytes.length - index

/-- Behind the closing quote of a string, or the end of the document. -/
def skipString (bytes : List UInt8) (index : Nat) : Nat :=
  if h : index < bytes.length then
    if bytes[index] = 0x5C then skipString bytes (min (index + 2) bytes.length)
    else if bytes[index] = 0x22 then index + 1
    else skipString bytes (index + 1)
  else index
termination_by bytes.length - index

theorem le_skipWhile (keep : UInt8 → Bool) (bytes : List UInt8) (index : Nat) :
    index ≤ skipWhile keep bytes index := by
  fun_induction skipWhile keep bytes index <;> omega

theorem le_stringEnd (bytes : List UInt8) (index : Nat) : index ≤ stringEnd bytes index := by
  fun_induction stringEnd bytes index <;> omega

theorem le_skipString (bytes : List UInt8) (index : Nat) : index ≤ skipString bytes index := by
  fun_induction skipString bytes index <;> omega

/-! ## Tokens and depth -/

structure SourceMetrics where
  tokens : Nat := 0
  depth : Nat := 0
  nesting : Nat := 0
deriving DecidableEq, Repr

/-- One more token at the current nesting. -/
def SourceMetrics.token (metrics : SourceMetrics) : SourceMetrics :=
  { metrics with tokens := metrics.tokens + 1, depth := max metrics.depth metrics.nesting }

def SourceMetrics.enter (metrics : SourceMetrics) : SourceMetrics :=
  { metrics.token with nesting := metrics.nesting + 1 }

def SourceMetrics.leave (metrics : SourceMetrics) : SourceMetrics :=
  { metrics with nesting := metrics.nesting - 1 }

def sourceMetricsFrom (bytes : List UInt8) (index : Nat) (metrics : SourceMetrics) :
    SourceMetrics :=
  if h : index < bytes.length then
    if isOpen bytes[index] then sourceMetricsFrom bytes (index + 1) metrics.enter
    else if isClose bytes[index] then sourceMetricsFrom bytes (index + 1) metrics.leave
    else if bytes[index] = 0x22 then
      have := le_skipString bytes (index + 1)
      sourceMetricsFrom bytes (skipString bytes (index + 1)) metrics.token
    else if startsNumber bytes[index] then
      have := le_skipWhile (!isDelimiter ·) bytes (index + 1)
      sourceMetricsFrom bytes (skipWhile (!isDelimiter ·) bytes (index + 1)) metrics.token
    else if startsLiteral bytes[index] then
      have := le_skipWhile isAsciiAlphabetic bytes (index + 1)
      sourceMetricsFrom bytes (skipWhile isAsciiAlphabetic bytes (index + 1)) metrics.token
    else sourceMetricsFrom bytes (index + 1) metrics
  else metrics
termination_by bytes.length - index

def sourceMetrics (bytes : List UInt8) : Nat × Nat :=
  let metrics := sourceMetricsFrom bytes 0 {}
  (metrics.tokens, metrics.depth)

/-! ## String literals -/

def hexDigitValue (digit : UInt8) : Option Nat :=
  if 0x30 ≤ digit ∧ digit ≤ 0x39 then some (digit.toNat - 0x30)
  else if 0x61 ≤ digit ∧ digit ≤ 0x66 then some (digit.toNat - 0x61 + 10)
  else if 0x41 ≤ digit ∧ digit ≤ 0x46 then some (digit.toNat - 0x41 + 10)
  else none

/-- Four digits never leave 16 bits. -/
def parseHexQuad (bytes : Option (List UInt8)) : Option Nat :=
  match bytes with
  | some [a, b, c, d] =>
    [a, b, c, d].foldlM (fun value digit => (hexDigitValue digit).map (value * 16 + ·)) 0
  | _ => none

/-- `char::from_u32(code).map(char::len_utf8).unwrap_or(3)` -/
def charLen (code : Nat) : Nat := if code.isValidChar then (Char.ofNat code).utf8Size else 3

/-- A low surrogate follows the escape at `index`. -/
def followedByLow (bytes : List UInt8) (index : Nat) : Bool :=
  slice? bytes (index + 6) (index + 8) == some [0x5C, 0x75] &&
    (parseHexQuad (slice? bytes (index + 8) (index + 12))).any fun low =>
      decide (0xDC00 ≤ low ∧ low ≤ 0xDFFF)

def decodedLenFrom (bytes : List UInt8) (index decoded : Nat) : Nat :=
  if h : index < bytes.length then
    if bytes[index] ≠ 0x5C then decodedLenFrom bytes (index + 1) (decoded + 1)
    else if hnext : index + 1 < bytes.length then
      if bytes[index + 1] ≠ 0x75 then decodedLenFrom bytes (index + 2) (decoded + 1)
      else
        match parseHexQuad (slice? bytes (index + 2) (index + 6)) with
        | none => decodedLenFrom bytes (index + 2) decoded
        | some high =>
          if (decide (0xD800 ≤ high ∧ high ≤ 0xDBFF) && followedByLow bytes index) = true then
            decodedLenFrom bytes (index + 12) (decoded + 4)
          else decodedLenFrom bytes (index + 6) (decoded + charLen high)
    else decoded
  else decoded
termination_by bytes.length - index

def jsonStringDecodedLen (bytes : List UInt8) : Nat := decodedLenFrom bytes 0 0

/-! ## Nodes, members, lengths -/

structure SourceValueMetrics where
  nodes : Nat := 0
  members : Nat := 0
  collectionLength : Nat := 0
  scalarBytes : Nat := 0
deriving DecidableEq, Repr

/-- The open collections, the innermost first, with their lengths so far. -/
abbrev Collections := List (UInt8 × Nat)

/-- One more entry of the innermost collection when it is of this kind. -/
def Collections.count (kind : UInt8) : Collections → Collections
  | (opened, length) :: outer =>
    if opened = kind then (opened, length + 1) :: outer else (opened, length) :: outer
  | [] => []

def SourceValueMetrics.node (metrics : SourceValueMetrics) : SourceValueMetrics :=
  { metrics with nodes := metrics.nodes + 1 }

def SourceValueMetrics.member (metrics : SourceValueMetrics) : SourceValueMetrics :=
  { metrics with members := metrics.members + 1 }

def SourceValueMetrics.scalar (metrics : SourceValueMetrics) (bytes : Nat) : SourceValueMetrics :=
  { metrics with scalarBytes := max metrics.scalarBytes bytes }

def SourceValueMetrics.collection (metrics : SourceValueMetrics) (length : Nat) :
    SourceValueMetrics :=
  { metrics with collectionLength := max metrics.collectionLength length }

def isKey (bytes : List UInt8) (stop : Nat) : Bool :=
  let next := skipWhile isAsciiWhitespace bytes (stop + 1)
  if h : next < bytes.length then bytes[next] == 0x3A else false

def sourceValueMetricsFrom (bytes : List UInt8) (index : Nat) (metrics : SourceValueMetrics)
    (collections : Collections) : Option SourceValueMetrics :=
  if h : index < bytes.length then
    if isOpen bytes[index] then
      sourceValueMetricsFrom bytes (index + 1) metrics.node
        ((bytes[index], 0) :: collections.count 0x5B)
    else if isClose bytes[index] then
      match collections with
      | (_, length) :: outer =>
        sourceValueMetricsFrom bytes (index + 1) (metrics.collection length) outer
      | [] => sourceValueMetricsFrom bytes (index + 1) metrics []
    else if bytes[index] = 0x22 then
      have := le_stringEnd bytes (index + 1)
      match slice? bytes (index + 1) (stringEnd bytes (index + 1)) with
      | none => none
      | some content =>
        let scalarBytes := jsonStringDecodedLen content
        if isKey bytes (stringEnd bytes (index + 1)) then
          sourceValueMetricsFrom bytes (stringEnd bytes (index + 1) + 1)
            (metrics.member.scalar scalarBytes) (collections.count 0x7B)
        else
          sourceValueMetricsFrom bytes (stringEnd bytes (index + 1) + 1)
            (metrics.node.scalar scalarBytes) (collections.count 0x5B)
    else if startsNumber bytes[index] then
      have := le_skipWhile (!isDelimiter ·) bytes (index + 1)
      sourceValueMetricsFrom bytes (skipWhile (!isDelimiter ·) bytes (index + 1))
        (metrics.node.scalar (skipWhile (!isDelimiter ·) bytes (index + 1) - index))
        (collections.count 0x5B)
    else if startsLiteral bytes[index] then
      have := le_skipWhile isAsciiAlphabetic bytes (index + 1)
      sourceValueMetricsFrom bytes (skipWhile isAsciiAlphabetic bytes (index + 1))
        (metrics.node.scalar (skipWhile isAsciiAlphabetic bytes (index + 1) - index))
        (collections.count 0x5B)
    else sourceValueMetricsFrom bytes (index + 1) metrics collections
  else some (collections.foldl (fun metrics entry => metrics.collection entry.2) metrics)
termination_by bytes.length - index

def sourceValueMetrics (bytes : List UInt8) : Option SourceValueMetrics :=
  sourceValueMetricsFrom bytes 0 {} []

/-! ## Limits -/

structure SourceLimits extends InputLimits where
  bytes : Nat
  tokens : Nat
deriving Repr

def checkInputSource (bytes : List UInt8) (limits : SourceLimits) :
    Option (Except InputLimitError Unit) :=
  let (tokens, depth) := sourceMetrics bytes
  match do
    checkBound "bytes" limits.bytes bytes.length []
    checkBound "tokens" limits.tokens tokens []
    checkBound "depth" limits.depth depth [] with
  | .error error => some (.error error)
  | .ok () =>
    (sourceValueMetrics bytes).map fun metrics => do
      checkBound "nodes" limits.nodes metrics.nodes []
      checkBound "members" limits.members metrics.members []
      checkBound "collection_length" limits.collectionLength metrics.collectionLength []
      checkBound "scalar_bytes" limits.scalarBytes metrics.scalarBytes []

/-! ## Parsed values -/

structure ValueMetrics where
  tokens : Nat := 0
  depth : Nat := 0
  depthPointer : Pointer := []
  nodes : Nat := 0
  members : Nat := 0
  membersPointer : Pointer := []
  scalarBytes : Nat := 0
  scalarPointer : Pointer := []
  pointerBytes : Nat := 0
  pointer : Pointer := []
deriving DecidableEq, Repr

namespace ValueMetrics

def recordScalar (metrics : ValueMetrics) (bytes : Nat) (pointer : Pointer) : ValueMetrics :=
  if bytes > metrics.scalarBytes then
    { metrics with scalarBytes := bytes, scalarPointer := pointer }
  else metrics

def recordDepth (metrics : ValueMetrics) (depth : Nat) (pointer : Pointer) : ValueMetrics :=
  if depth > metrics.depth then { metrics with depth, depthPointer := pointer } else metrics

def recordPointer (metrics : ValueMetrics) (pointer : Pointer) : ValueMetrics :=
  if pointer.text.utf8ByteSize > metrics.pointerBytes then
    { metrics with pointerBytes := pointer.text.utf8ByteSize, pointer }
  else metrics

def recordMembers (metrics : ValueMetrics) (length : Nat) (pointer : Pointer) : ValueMetrics :=
  if length > metrics.members then
    { metrics with members := length, membersPointer := pointer }
  else metrics

end ValueMetrics

/-- What the walk does on reaching a value. It is broken off, with the measures so far, at a
value deeper than the limit and than every one before. -/
def enterMetrics (depthLimit depth : Nat) (pointer : Pointer) (metrics : ValueMetrics)
    (value : Value) : Except ValueMetrics ValueMetrics :=
  let counted := { metrics with nodes := metrics.nodes + 1, tokens := metrics.tokens + 1 }
  let deeper := counted.recordDepth depth pointer
  if depth > counted.depth ∧ depth > depthLimit then .error deeper
  else
    let metrics := deeper.recordPointer pointer
    .ok <| match value with
      | .object members =>
        { metrics with tokens := metrics.tokens + members.length }.recordMembers members.length
          pointer
      | .array items => metrics.recordMembers items.length pointer
      | value => metrics.recordScalar value.scalarBytes pointer

mutual

def metricsFrom (depthLimit depth : Nat) (pointer : Pointer) (metrics : ValueMetrics) :
    Value → Except ValueMetrics ValueMetrics
  | .array items => do
    let metrics ← enterMetrics depthLimit depth pointer metrics (.array items)
    itemsMetricsFrom depthLimit depth pointer 0 metrics items
  | .object members => do
    let metrics ← enterMetrics depthLimit depth pointer metrics (.object members)
    membersMetricsFrom depthLimit depth pointer metrics members
  | value => enterMetrics depthLimit depth pointer metrics value

def itemsMetricsFrom (depthLimit depth : Nat) (pointer : Pointer) (nextIndex : Nat)
    (metrics : ValueMetrics) : List Value → Except ValueMetrics ValueMetrics
  | [] => .ok metrics
  | child :: children => do
    let metrics ←
      metricsFrom depthLimit (depth + 1) (pointer ++ [Nat.repr nextIndex]) metrics child
    itemsMetricsFrom depthLimit depth pointer (nextIndex + 1) metrics children

def membersMetricsFrom (depthLimit depth : Nat) (pointer : Pointer) (metrics : ValueMetrics) :
    List (String × Value) → Except ValueMetrics ValueMetrics
  | [] => .ok metrics
  | (key, child) :: children => do
    let metrics := metrics.recordScalar key.utf8ByteSize (pointer ++ [key])
    let metrics ← metricsFrom depthLimit (depth + 1) (pointer ++ [key]) metrics child
    membersMetricsFrom depthLimit depth pointer metrics children

end

def valueMetrics (value : Value) (depthLimit : Nat) : ValueMetrics :=
  match metricsFrom depthLimit 0 [] {} value with
  | .ok metrics => metrics
  | .error metrics => metrics

end Schemaform.Source
