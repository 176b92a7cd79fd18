import Mathlib.Tactic.IntervalCases
import Schemaform.Json.Number
import Schemaform.Source.Strings

/-!
# Source.Tokens

The tokens of a text are those of its value with every repeated member kept.

* `Value.tokens`: the tokens of a value, keys before their values.
* `Syntax.raw`: the value of a text before members of one key replace each other.
* `Follows`: what can stand behind a value.
* `lexes`: a text is lexed to the tokens of its raw value.
-/

namespace Schemaform

namespace Value

open Source

mutual

def tokens : Value → List Token
  | .null => [.scalar 4]
  | .bool b => [.scalar (if b then 4 else 5)]
  | .number literal => [.scalar literal.utf8ByteSize]
  | .string s => [.string s.utf8ByteSize false]
  | .array items => .opened 0x5B :: (itemsTokens items ++ [.closed])
  | .object members => .opened 0x7B :: (membersTokens members ++ [.closed])

def itemsTokens : List Value → List Token
  | [] => []
  | item :: items => tokens item ++ itemsTokens items

def membersTokens : List (String × Value) → List Token
  | [] => []
  | (key, value) :: members =>
    .string key.utf8ByteSize true :: (tokens value ++ membersTokens members)

end

end Value

namespace Source

mutual

def Syntax.raw : Syntax → Value
  | .null => .null
  | .boolean b => .bool b
  | .number literal _ => .number literal
  | .string parts => .string (stringText parts)
  | .array _ items => .array (rawItems items)
  | .object _ members => .object (rawEntries members)

def Item.raw : Item Syntax → Value
  | ⟨_, inner, _⟩ => Syntax.raw inner

def Member.rawEntry : Member Syntax → String × Value
  | ⟨_, key, _, item⟩ => (stringText key, Item.raw item)

def rawItems : List (Item Syntax) → List Value
  | [] => []
  | item :: items => Item.raw item :: rawItems items

def rawEntries : List (Member Syntax) → List (String × Value)
  | [] => []
  | member :: members => Member.rawEntry member :: rawEntries members

end

/-! ## One token -/

theorem lex_opened {byte : UInt8} (h : isOpen byte = true) (rest : List UInt8) :
    lex (byte :: rest) = .opened byte :: lex rest := by
  rw [lex, if_pos h]

theorem lex_closed {byte : UInt8} (ho : isOpen byte = false) (h : isClose byte = true)
    (rest : List UInt8) : lex (byte :: rest) = .closed :: lex rest := by
  rw [lex, if_neg (by simp [ho]), if_pos h]

/-- Whitespace, commas and colons are no tokens. -/
def Silent (byte : UInt8) : Prop :=
  isOpen byte = false ∧ isClose byte = false ∧ byte ≠ 0x22 ∧ startsNumber byte = false ∧
    startsLiteral byte = false

theorem lex_silent {byte : UInt8} (h : Silent byte) (rest : List UInt8) :
    lex (byte :: rest) = lex rest := by
  obtain ⟨ho, hc, hq, hn, hl⟩ := h
  rw [lex, if_neg (by simp [ho]), if_neg (by simp [hc]), if_neg hq, if_neg (by simp [hn]),
    if_neg (by simp [hl])]

theorem lex_space (space : List Whitespace) (rest : List UInt8) :
    lex (spaceBytes space ++ rest) = lex rest := by
  induction space with
  | nil => rfl
  | cons blank space ih =>
    have hsilent : Silent blank.byte := by cases blank <;> (unfold Silent; decide)
    exact (lex_silent hsilent _).trans ih

theorem lex_string (parts : List StringPart) (rest : List UInt8) :
    lex (0x22 :: (stringBytes parts ++ 0x22 :: rest)) =
      .string (stringText parts).utf8ByteSize (keyFollows rest) :: lex rest := by
  rw [lex, if_neg (by decide), if_neg (by decide), if_pos rfl, splitString_stringBytes,
    jsonStringDecodedLen_stringBytes]
  rfl

/-! ## What follows a value -/

/-- The text ends, or a comma or a bracket stands here. -/
def Stops : List UInt8 → Prop
  | [] => True
  | byte :: _ => byte = 0x2C ∨ byte = 0x5D ∨ byte = 0x7D

def Follows (rest : List UInt8) : Prop :=
  ∃ space tail, rest = spaceBytes space ++ tail ∧ Stops tail

theorem Follows.space {tail : List UInt8} (h : Stops tail) (space : List Whitespace) :
    Follows (spaceBytes space ++ tail) := ⟨space, tail, rfl, h⟩

theorem Follows.head {byte : UInt8} {rest : List UInt8} (h : Follows (byte :: rest)) :
    isDelimiter byte = true ∧ isAsciiAlphabetic byte = false := by
  obtain ⟨space, tail, heq, hstops⟩ := h
  cases space with
  | nil =>
    obtain rfl : byte :: rest = tail := heq
    rcases hstops with rfl | rfl | rfl <;> decide
  | cons blank space =>
    obtain rfl := (List.cons.inj heq).1
    cases blank <;> decide

theorem dropWhile_space (space : List Whitespace) (rest : List UInt8) :
    (spaceBytes space ++ rest).dropWhile isAsciiWhitespace = rest.dropWhile isAsciiWhitespace := by
  induction space with
  | nil => rfl
  | cons blank space ih =>
    have hblank : isAsciiWhitespace blank.byte = true := by cases blank <;> decide
    exact (List.dropWhile_cons_of_pos hblank).trans ih

theorem Follows.not_key {rest : List UInt8} (h : Follows rest) : keyFollows rest = false := by
  obtain ⟨space, tail, rfl, hstops⟩ := h
  unfold keyFollows
  rw [dropWhile_space]
  cases tail with
  | nil => rfl
  | cons byte tail =>
    rcases hstops with rfl | rfl | rfl <;>
      rw [List.dropWhile_cons_of_neg (by decide)] <;> rfl

theorem keyFollows_colon (space : List Whitespace) (rest : List UInt8) :
    keyFollows (spaceBytes space ++ 0x3A :: rest) = true := by
  unfold keyFollows
  rw [dropWhile_space, List.dropWhile_cons_of_neg (by decide)]
  rfl

/-- A run that goes on as long as `keep` ends where a value is followed. -/
theorem takeWhile_run {keep : UInt8 → Bool} {run rest : List UInt8}
    (hrun : ∀ byte ∈ run, keep byte = true) (hrest : ∀ byte ∈ rest.head?, keep byte = false) :
    (run ++ rest).takeWhile keep = run ∧ (run ++ rest).dropWhile keep = rest := by
  rw [List.takeWhile_append_of_pos hrun, List.dropWhile_append_of_pos hrun]
  cases rest with
  | nil => simp
  | cons byte rest =>
    have hbyte := hrest byte rfl
    rw [List.takeWhile_cons_of_neg (by simp [hbyte]), List.dropWhile_cons_of_neg (by simp [hbyte])]
    simp

theorem Follows.delimited {rest : List UInt8} (h : Follows rest) :
    ∀ byte ∈ rest.head?, (!isDelimiter byte) = false := by
  cases rest with
  | nil => intro byte hb; cases hb
  | cons byte rest =>
    intro other ho
    obtain rfl := Option.some.inj ho
    rw [h.head.1]
    rfl

theorem Follows.not_alphabetic {rest : List UInt8} (h : Follows rest) :
    ∀ byte ∈ rest.head?, isAsciiAlphabetic byte = false := by
  cases rest with
  | nil => intro byte hb; cases hb
  | cons byte rest =>
    intro other ho
    obtain rfl := Option.some.inj ho
    exact h.head.2

theorem lex_literal (byte : UInt8) (run : List UInt8) {rest : List UInt8}
    (hb : startsLiteral byte = true)
    (hs : isOpen byte = false ∧ isClose byte = false ∧ byte ≠ 0x22 ∧ startsNumber byte = false)
    (hrun : ∀ other ∈ run, isAsciiAlphabetic other = true) (h : Follows rest) :
    lex (byte :: (run ++ rest)) = .scalar (1 + run.length) :: lex rest := by
  obtain ⟨ho, hc, hq, hn⟩ := hs
  obtain ⟨htake, hdrop⟩ := takeWhile_run hrun h.not_alphabetic
  rw [lex, if_neg (by simp [ho]), if_neg (by simp [hc]), if_neg hq, if_neg (by simp [hn]),
    if_pos hb, htake, hdrop]

theorem lex_number {byte : UInt8} {run rest : List UInt8} (hb : startsNumber byte = true)
    (hrun : ∀ other ∈ run, isDelimiter other = false) (h : Follows rest) :
    lex (byte :: (run ++ rest)) = .scalar (1 + run.length) :: lex rest := by
  have hne : ∀ other : UInt8, startsNumber other = false → byte ≠ other := by
    intro other ho he
    rw [he, ho] at hb
    cases hb
  have ho : isOpen byte = false := by
    simp [isOpen, hne 0x7B (by decide), hne 0x5B (by decide)]
  have hc : isClose byte = false := by
    simp [isClose, hne 0x7D (by decide), hne 0x5D (by decide)]
  have hq : byte ≠ 0x22 := hne 0x22 (by decide)
  have hkeep : ∀ other ∈ run, (!isDelimiter other) = true := by
    intro other hother
    rw [hrun other hother]
    rfl
  obtain ⟨htake, hdrop⟩ := takeWhile_run hkeep h.delimited
  rw [lex, if_neg (by simp [ho]), if_neg (by simp [hc]), if_neg hq, if_pos hb, htake, hdrop]

/-! ## Numbers -/

def IsNumberChar (c : Char) : Prop :=
  c.isDigit = true ∨ c = '-' ∨ c = '+' ∨ c = '.' ∨ c = 'e' ∨ c = 'E'

theorem digits_numberChars {ds : List Char} (h : Decimal.IsDigits ds) : ∀ c ∈ ds, IsNumberChar c :=
  fun c hc => .inl (h c hc)

theorem numberSpelling_chars {n : NumberSpelling} (h : n.WellFormed) :
    ∀ c ∈ n.chars, IsNumberChar c := by
  have hfraction : ∀ c ∈ n.fractionChars, IsNumberChar c := by
    intro c hc
    unfold NumberSpelling.fractionChars at hc
    split at hc
    · cases hc
    · rcases List.mem_cons.mp hc with rfl | hc
      · exact .inr (.inr (.inr (.inl rfl)))
      · exact digits_numberChars h.fraction c hc
  have hexponent : ∀ c ∈ n.exponentChars, IsNumberChar c := by
    intro c hc
    unfold NumberSpelling.exponentChars at hc
    split at hc
    · cases hc
    · rename_i e sign digits he
      obtain ⟨hletter, hsign, hdigits, -⟩ := h.exponent e sign digits he
      rcases List.mem_cons.mp hc with rfl | hc
      · exact .inr (.inr (.inr (.inr hletter)))
      · rcases List.mem_append.mp hc with hc | hc
        · rcases hsign with rfl | rfl | rfl
          · cases hc
          · exact .inr (.inr (.inl (List.mem_singleton.mp hc)))
          · exact .inr (.inl (List.mem_singleton.mp hc))
        · exact digits_numberChars hdigits c hc
  intro c hc
  unfold NumberSpelling.chars NumberSpelling.unsignedChars at hc
  rcases List.mem_append.mp hc with hc | hc
  · split at hc
    · exact .inr (.inl (List.mem_singleton.mp hc))
    · cases hc
  · rcases List.mem_append.mp hc with hc | hc
    · exact digits_numberChars h.whole c hc
    · rcases List.mem_append.mp hc with hc | hc
      · exact hfraction c hc
      · exact hexponent c hc

theorem numberSpelling_head {n : NumberSpelling} (h : n.WellFormed) :
    ∃ c rest, n.chars = c :: rest ∧ (c = '-' ∨ c.isDigit = true) := by
  obtain ⟨d, ds, hwhole⟩ := List.exists_cons_of_ne_nil h.whole_ne
  have hd : d.isDigit = true := h.whole d (hwhole ▸ List.mem_cons_self)
  unfold NumberSpelling.chars NumberSpelling.unsignedChars
  rw [hwhole]
  cases n.negative with
  | true => exact ⟨'-', _, rfl, .inl rfl⟩
  | false => exact ⟨d, _, rfl, .inr hd⟩

theorem isDigit_bounds {c : Char} (h : c.isDigit = true) : 0x30 ≤ c.toNat ∧ c.toNat ≤ 0x39 := by
  rw [Char.isDigit, Bool.and_eq_true, decide_eq_true_eq, decide_eq_true_eq] at h
  exact ⟨UInt32.le_iff_toNat_le.mp h.1, UInt32.le_iff_toNat_le.mp h.2⟩

theorem numberChar_ascii {c : Char} (h : IsNumberChar c) : c.toNat < 0x80 := by
  rcases h with h | rfl | rfl | rfl | rfl | rfl
  · have := isDigit_bounds h
    omega
  all_goals decide

theorem numberChar_not_delimiter {c : Char} (h : IsNumberChar c) :
    isDelimiter (UInt8.ofNat c.toNat) = false := by
  rcases h with h | rfl | rfl | rfl | rfl | rfl
  · obtain ⟨hlow, hhigh⟩ := isDigit_bounds h
    generalize c.toNat = code at hlow hhigh
    interval_cases code <;> rfl
  all_goals decide

theorem numberChar_starts {c : Char} (h : c = '-' ∨ c.isDigit = true) :
    startsNumber (UInt8.ofNat c.toNat) = true := by
  rcases h with rfl | h
  · decide
  · obtain ⟨hlow, hhigh⟩ := isDigit_bounds h
    generalize c.toNat = code at hlow hhigh
    interval_cases code <;> rfl

/-- The bytes of characters below 128. -/
theorem flatMap_utf8_ascii {cs : List Char} (h : ∀ c ∈ cs, c.toNat < 0x80) :
    cs.flatMap String.utf8EncodeChar = cs.map fun c => UInt8.ofNat c.toNat := by
  induction cs with
  | nil => rfl
  | cons c cs ih =>
    rw [List.flatMap_cons, utf8EncodeChar_ascii (h c List.mem_cons_self),
      ih fun d hd => h d (List.mem_cons_of_mem _ hd)]
    rfl

theorem length_flatMap_utf8 (s : String) :
    (s.toList.flatMap String.utf8EncodeChar).length = s.utf8ByteSize := by
  have hlist : ∀ cs : List Char,
      (cs.flatMap String.utf8EncodeChar).length = (String.ofList cs).utf8ByteSize := by
    intro cs
    induction cs with
    | nil => rfl
    | cons c cs ih =>
      rw [List.flatMap_cons, List.length_append, ih, String.length_utf8EncodeChar,
        String.ofList_cons, String.utf8ByteSize_append, String.utf8ByteSize_singleton]
  rw [hlist, String.ofList_toList]

theorem lex_numberLiteral {literal : String} (h : isNumberLiteral literal = true)
    {rest : List UInt8} (hrest : Follows rest) :
    lex (literal.toList.flatMap String.utf8EncodeChar ++ rest) =
      .scalar literal.utf8ByteSize :: lex rest := by
  obtain ⟨n, hn, hchars⟩ := isNumberLiteral_iff.mp h
  obtain ⟨c, cs, hcons, hc⟩ := numberSpelling_head hn
  have hall := numberSpelling_chars hn
  rw [hcons] at hall hchars
  have hsize := length_flatMap_utf8 literal
  have hbytes := flatMap_utf8_ascii fun d hd => numberChar_ascii (hall d hd)
  rw [← hchars] at hsize ⊢
  rw [hbytes, List.map_cons, List.length_cons] at hsize
  rw [hbytes, List.map_cons, List.cons_append, lex_number (numberChar_starts hc) ?_ hrest]
  · congr 2
    omega
  · intro byte hbyte
    obtain ⟨d, hd, rfl⟩ := List.mem_map.mp hbyte
    exact numberChar_not_delimiter (hall d (List.mem_cons_of_mem _ hd))

/-! ## Texts -/

/-- A value lexes to its tokens, whatever may follow it. -/
def Lexes (s : Syntax) : Prop :=
  ∀ rest, Follows rest → lex (s.bytes ++ rest) = s.raw.tokens ++ lex rest

theorem lex_item {item : Item Syntax} (h : Lexes item.inner) {rest : List UInt8}
    (hrest : Stops rest) : lex (item.bytes ++ rest) = item.raw.tokens ++ lex rest := by
  obtain ⟨before, inner, after⟩ := item
  rw [Item.bytes, List.append_assoc, lex_space, List.append_assoc,
    h _ (Follows.space hrest after), lex_space]
  rfl

theorem lex_items {items : List (Item Syntax)} (h : ∀ item ∈ items, Lexes item.inner)
    (rest : List UInt8) : lex (itemsBytes items ++ 0x5D :: rest) =
      Value.itemsTokens (rawItems items) ++ .closed :: lex rest := by
  induction items with
  | nil => exact lex_closed rfl rfl rest
  | cons item items ih =>
    have hitem := h item List.mem_cons_self
    have ih := ih fun other ho => h other (List.mem_cons_of_mem _ ho)
    rw [itemsBytes, List.append_assoc, rawItems, Value.itemsTokens, List.append_assoc, ← ih]
    cases items with
    | nil =>
      have hstops : Stops (0x5D :: rest) := .inr (.inl rfl)
      exact lex_item hitem hstops
    | cons next items =>
      have hcomma : lex (0x2C :: (itemsBytes (next :: items) ++ 0x5D :: rest)) =
          lex (itemsBytes (next :: items) ++ 0x5D :: rest) :=
        lex_silent (by unfold Silent; decide) _
      have hstops : Stops (0x2C :: (itemsBytes (next :: items) ++ 0x5D :: rest)) := .inl rfl
      rw [← hcomma]
      exact lex_item hitem hstops

theorem lex_member {member : Member Syntax} (h : Lexes member.item.inner) {rest : List UInt8}
    (hrest : Stops rest) : lex (member.bytes ++ rest) =
      .string (stringText member.key).utf8ByteSize true :: (member.item.raw.tokens ++ lex rest) := by
  obtain ⟨before, key, between, item⟩ := member
  have happend : Member.bytes ⟨before, key, between, item⟩ ++ rest = spaceBytes before ++
      0x22 :: (stringBytes key ++ 0x22 :: (spaceBytes between ++ 0x3A :: (item.bytes ++ rest))) := by
    simp [Member.bytes]
  have hcolon : lex (0x3A :: (item.bytes ++ rest)) = lex (item.bytes ++ rest) :=
    lex_silent (by unfold Silent; decide) _
  rw [happend, lex_space, lex_string, keyFollows_colon, lex_space, hcolon, lex_item h hrest]

theorem lex_members {members : List (Member Syntax)}
    (h : ∀ member ∈ members, Lexes member.item.inner) (rest : List UInt8) :
    lex (membersBytes members ++ 0x7D :: rest) =
      Value.membersTokens (rawEntries members) ++ .closed :: lex rest := by
  induction members with
  | nil => exact lex_closed rfl rfl rest
  | cons member members ih =>
    have hmember := h member List.mem_cons_self
    have ih := ih fun other ho => h other (List.mem_cons_of_mem _ ho)
    have htokens : Value.membersTokens (rawEntries (member :: members)) =
        .string (stringText member.key).utf8ByteSize true ::
          (member.item.raw.tokens ++ Value.membersTokens (rawEntries members)) := by
      obtain ⟨before, key, between, item⟩ := member
      rfl
    rw [membersBytes, List.append_assoc, htokens, List.cons_append, List.append_assoc, ← ih]
    cases members with
    | nil =>
      have hstops : Stops (0x7D :: rest) := .inr (.inr rfl)
      exact lex_member hmember hstops
    | cons next members =>
      have hcomma : lex (0x2C :: (membersBytes (next :: members) ++ 0x7D :: rest)) =
          lex (membersBytes (next :: members) ++ 0x7D :: rest) :=
        lex_silent (by unfold Silent; decide) _
      have hstops : Stops (0x2C :: (membersBytes (next :: members) ++ 0x7D :: rest)) := .inl rfl
      rw [← hcomma]
      exact lex_member hmember hstops

theorem lexes (s : Syntax) : Lexes s := by
  induction s using Syntax.induct with
  | null =>
    intro rest hrest
    exact lex_literal 0x6E [0x75, 0x6C, 0x6C] rfl (by decide) (List.all_eq_true.mp rfl) hrest
  | boolean b =>
    intro rest hrest
    cases b with
    | true =>
      exact lex_literal 0x74 [0x72, 0x75, 0x65] rfl (by decide) (List.all_eq_true.mp rfl) hrest
    | false =>
      exact lex_literal 0x66 [0x61, 0x6C, 0x73, 0x65] rfl (by decide)
        (List.all_eq_true.mp rfl) hrest
  | number literal h =>
    intro rest hrest
    exact lex_numberLiteral h hrest
  | string parts =>
    intro rest hrest
    have happend : (Syntax.string parts).bytes ++ rest =
        0x22 :: (stringBytes parts ++ 0x22 :: rest) := by
      simp [Syntax.bytes]
    rw [happend, lex_string, hrest.not_key]
    rfl
  | array space items h =>
    intro rest hrest
    have happend : (Syntax.array space items).bytes ++ rest =
        0x5B :: (spaceBytes space ++ (itemsBytes items ++ 0x5D :: rest)) := by
      simp [Syntax.bytes]
    rw [happend, lex_opened rfl, lex_space, lex_items h]
    simp [Syntax.raw, Value.tokens]
  | object space members h =>
    intro rest hrest
    have happend : (Syntax.object space members).bytes ++ rest =
        0x7B :: (spaceBytes space ++ (membersBytes members ++ 0x7D :: rest)) := by
      simp [Syntax.bytes]
    rw [happend, lex_opened rfl, lex_space, lex_members h]
    simp [Syntax.raw, Value.tokens]

/-- A whole text. -/
theorem lex_text (text : Item Syntax) : lex text.bytes = text.raw.tokens := by
  have hstops : Stops [] := trivial
  have h := lex_item (lexes text.inner) hstops
  rwa [List.append_nil, lex, List.append_nil] at h

end Source

end Schemaform
