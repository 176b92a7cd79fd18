import Schemaform.Json.Encode
import Schemaform.Json.Number
import Schemaform.Lib.SelfDelimiting

/-!
# Json.EncodeSpec

The compact encoding determines the value.

* `encodeString_split`: a string is split off whatever follows it.
* `encode_decodes`: a value is split off a comma, a closing bracket or nothing.
* `text_inj`: well-formed values with one text are equal.
-/

namespace Schemaform

open SelfDelimiting

/-! ## Characters -/

/-- The characters with an escape of their own, and the letter it ends with. -/
def escapeLetters : List (Char × Char) :=
  [('"', '"'), ('\\', '\\'), ('\x08', 'b'), ('\x0c', 'f'), ('\n', 'n'), ('\r', 'r'), ('\t', 't')]

/-- How a character is written: with a letter, with its number, or as it is. -/
theorem encodeChar_cases (c : Char) :
    (∃ letter, (c, letter) ∈ escapeLetters ∧ encodeChar c = ['\\', letter]) ∨
    (c.toNat < 32 ∧ encodeChar c =
      ['\\', 'u', '0', '0', hexDigit (c.toNat / 16), hexDigit (c.toNat % 16)]) ∨
    (c ≠ '"' ∧ c ≠ '\\' ∧ encodeChar c = [c]) := by
  unfold encodeChar escapeLetters
  by_cases hquote : c = '"'
  · exact .inl ⟨'"', by simp [hquote], by simp [hquote]⟩
  by_cases hslash : c = '\\'
  · exact .inl ⟨'\\', by simp [hslash], by simp [hslash]⟩
  by_cases hb : c = '\x08'
  · exact .inl ⟨'b', by simp [hb], by simp [hb]⟩
  by_cases hf : c = '\x0c'
  · exact .inl ⟨'f', by simp [hf], by simp [hf]⟩
  by_cases hn : c = '\n'
  · exact .inl ⟨'n', by simp [hn], by simp [hn]⟩
  by_cases hr : c = '\r'
  · exact .inl ⟨'r', by simp [hr], by simp [hr]⟩
  by_cases ht : c = '\t'
  · exact .inl ⟨'t', by simp [ht], by simp [ht]⟩
  rw [if_neg hquote, if_neg hslash, if_neg hb, if_neg hf, if_neg hn, if_neg hr, if_neg ht]
  by_cases hcontrol : c.toNat < 32
  · exact .inr (.inl ⟨hcontrol, if_pos hcontrol⟩)
  · exact .inr (.inr ⟨hquote, hslash, if_neg hcontrol⟩)

theorem escapeLetters_inj : ∀ e ∈ escapeLetters, ∀ f ∈ escapeLetters, e.2 = f.2 → e = f := by
  decide

theorem escapeLetters_ne_u : ∀ e ∈ escapeLetters, e.2 ≠ 'u' := by decide

theorem hexDigit_inj : ∀ m < 16, ∀ n < 16, hexDigit m = hexDigit n → m = n := by decide

theorem hexDigits_inj {c d : Char} (hc : c.toNat < 32) (hd : d.toNat < 32)
    (hhigh : hexDigit (c.toNat / 16) = hexDigit (d.toNat / 16))
    (hlow : hexDigit (c.toNat % 16) = hexDigit (d.toNat % 16)) : c = d := by
  have hdiv := hexDigit_inj _ (by omega) _ (by omega) hhigh
  have hmod := hexDigit_inj _ (by omega) _ (by omega) hlow
  exact Char.toNat_inj.mp (by omega)

/-- No character is written like the beginning of another. -/
theorem encodeChar_split {c d : Char} {s t : List Char}
    (h : encodeChar c ++ s = encodeChar d ++ t) : c = d ∧ s = t := by
  rcases encodeChar_cases c with ⟨l, hl, hc⟩ | ⟨hlt, hc⟩ | ⟨_, hslash, hc⟩ <;>
    rcases encodeChar_cases d with ⟨m, hm, hd⟩ | ⟨hlt', hd⟩ | ⟨_, hslash', hd⟩ <;>
    rw [hc, hd] at h <;> simp only [List.cons_append, List.nil_append, List.cons.injEq] at h
  · obtain ⟨_, rfl, hst⟩ := h
    exact ⟨congrArg Prod.fst (escapeLetters_inj _ hl _ hm rfl), hst⟩
  · exact absurd h.2.1 (escapeLetters_ne_u _ hl)
  · exact absurd h.1.symm hslash'
  · exact absurd h.2.1.symm (escapeLetters_ne_u _ hm)
  · obtain ⟨_, _, _, _, hhigh, hlow, hst⟩ := h
    exact ⟨hexDigits_inj hlt hlt' hhigh hlow, hst⟩
  · exact absurd h.1.symm hslash'
  · exact absurd h.1 hslash
  · exact absurd h.1 hslash
  · exact h

/-- A quotation mark begins no character. -/
theorem encodeChar_head (c : Char) : ∃ first rest, encodeChar c = first :: rest ∧ first ≠ '"' := by
  rcases encodeChar_cases c with ⟨l, _, hc⟩ | ⟨_, hc⟩ | ⟨hquote, _, hc⟩
  · exact ⟨_, _, hc, by decide⟩
  · exact ⟨_, _, hc, by decide⟩
  · exact ⟨_, _, hc, hquote⟩

/-! ## Strings -/

theorem encodeChars_split {cs ds s t : List Char}
    (h : cs.flatMap encodeChar ++ '"' :: s = ds.flatMap encodeChar ++ '"' :: t) :
    cs = ds ∧ s = t := by
  induction cs generalizing ds with
  | nil =>
    cases ds with
    | nil => exact ⟨rfl, (List.cons.inj h).2⟩
    | cons d ds =>
      obtain ⟨first, rest, hd, hne⟩ := encodeChar_head d
      rw [List.flatMap_cons, hd] at h
      exact absurd (List.cons.inj h).1.symm hne
  | cons c cs ih =>
    cases ds with
    | nil =>
      obtain ⟨first, rest, hc, hne⟩ := encodeChar_head c
      rw [List.flatMap_cons, hc] at h
      exact absurd (List.cons.inj h).1 hne
    | cons d ds =>
      rw [List.flatMap_cons, List.flatMap_cons, List.append_assoc, List.append_assoc] at h
      obtain ⟨rfl, hrest⟩ := encodeChar_split h
      obtain ⟨rfl, hst⟩ := ih hrest
      exact ⟨rfl, hst⟩

theorem encodeString_split {x y : String} {s t : List Char}
    (h : encodeString x ++ s = encodeString y ++ t) : x = y ∧ s = t := by
  rw [encodeString, encodeString, List.cons_append, List.cons_append, List.append_assoc,
    List.append_assoc] at h
  obtain ⟨hxy, hst⟩ := encodeChars_split (List.cons.inj h).2
  exact ⟨String.toList_inj.mp hxy, hst⟩

/-! ## Numbers -/

def isNumeric (c : Char) : Bool :=
  c.isDigit || c == '-' || c == '+' || c == '.' || c == 'e' || c == 'E'

theorem isNumeric_of_digit {c : Char} (h : c.isDigit = true) : isNumeric c = true := by
  simp [isNumeric, h]

theorem isNumeric_chars {n : NumberSpelling} (h : n.WellFormed) :
    ∀ c ∈ n.chars, isNumeric c = true := by
  intro c hc
  rw [NumberSpelling.chars, NumberSpelling.unsignedChars] at hc
  rcases List.mem_append.mp hc with hc | hc
  · split at hc
    · obtain rfl := List.mem_singleton.mp hc
      rfl
    · cases hc
  rcases List.mem_append.mp hc with hc | hc
  · exact isNumeric_of_digit (h.whole c hc)
  rcases List.mem_append.mp hc with hc | hc
  · unfold NumberSpelling.fractionChars at hc
    split at hc
    · cases hc
    · rcases List.mem_cons.mp hc with rfl | hc
      · rfl
      · exact isNumeric_of_digit (h.fraction c hc)
  · unfold NumberSpelling.exponentChars at hc
    cases he : n.exponent with
    | none =>
      rw [he] at hc
      cases hc
    | some e =>
      obtain ⟨e, sign, digits⟩ := e
      obtain ⟨hE, hsign, hdigits, _⟩ := h.exponent e sign digits he
      rw [he] at hc
      rcases List.mem_cons.mp hc with rfl | hc
      · rcases hE with rfl | rfl <;> rfl
      rcases List.mem_append.mp hc with hc | hc
      · rcases hsign with rfl | rfl | rfl
        · cases hc
        · obtain rfl := List.mem_singleton.mp hc
          rfl
        · obtain rfl := List.mem_singleton.mp hc
          rfl
      · exact isNumeric_of_digit (hdigits c hc)

theorem isNumeric_literal {literal : String} (h : isNumberLiteral literal = true) :
    (∀ c ∈ literal.toList, isNumeric c = true) ∧ literal.toList ≠ [] := by
  obtain ⟨n, hn, hc⟩ := isNumberLiteral_iff.mp h
  refine ⟨hc ▸ isNumeric_chars hn, fun hnil => ?_⟩
  rw [← hc, NumberSpelling.chars, NumberSpelling.unsignedChars] at hnil
  exact hn.whole_ne (List.append_eq_nil_iff.mp (List.append_eq_nil_iff.mp hnil).2).1

/-! ## Values -/

/-- What follows a value. -/
def EndsValue (cs : List Char) : Prop := ∀ c ∈ cs.head?, c = ',' ∨ c = ']' ∨ c = '}'

theorem takeWhile_literal {literal : String} (h : isNumberLiteral literal = true) {s : List Char}
    (hs : EndsValue s) : (literal.toList ++ s).takeWhile isNumeric = literal.toList := by
  rw [List.takeWhile_append_of_pos (isNumeric_literal h).1]
  cases s with
  | nil => exact List.append_nil _
  | cons c s =>
    have hc : isNumeric c = false := by
      rcases hs c rfl with rfl | rfl | rfl <;> rfl
    rw [List.takeWhile_cons_of_neg (by simp [hc]), List.append_nil]

namespace Value

/-- The kind of value a character begins. -/
def kindOf (c : Char) : Nat :=
  if c = 'n' then 0 else if c = 't' then 1 else if c = 'f' then 2 else if c = '"' then 4
  else if c = '[' then 5 else if c = '{' then 6 else if isNumeric c then 3 else 7

def kind : Value → Nat
  | .null => 0
  | .bool true => 1
  | .bool false => 2
  | .number _ => 3
  | .string _ => 4
  | .array _ => 5
  | .object _ => 6

theorem kindOf_numeric {c : Char} (h : isNumeric c = true) : kindOf c = 3 := by
  have hne (d : Char) (hd : isNumeric d = false) : c ≠ d := by
    rintro rfl
    rw [h] at hd
    cases hd
  unfold kindOf
  rw [if_neg (hne _ rfl), if_neg (hne _ rfl), if_neg (hne _ rfl), if_neg (hne _ rfl),
    if_neg (hne _ rfl), if_neg (hne _ rfl), if_pos h]

theorem encode_head {a : Value} (ha : a.WF) :
    ∃ c rest, a.encode = c :: rest ∧ kindOf c = a.kind := by
  cases a with
  | null => exact ⟨_, _, rfl, rfl⟩
  | bool b => cases b <;> exact ⟨_, _, rfl, rfl⟩
  | number literal =>
    obtain ⟨hnumeric, hne⟩ := isNumeric_literal ha
    obtain ⟨c, rest, hc⟩ := List.exists_cons_of_ne_nil hne
    refine ⟨c, rest, hc, kindOf_numeric (hnumeric c ?_)⟩
    rw [hc]
    exact List.mem_cons_self
  | string s => exact ⟨_, _, rfl, rfl⟩
  | array items => exact ⟨_, _, rfl, rfl⟩
  | object members => exact ⟨_, _, rfl, rfl⟩

theorem kind_lt (a : Value) : a.kind < 7 := by
  cases a with
  | bool b => cases b <;> decide
  | _ => simp only [kind]; omega

theorem encode_ne_close {a : Value} (ha : a.WF) : ∃ c rest, a.encode = c :: rest ∧ c ≠ ']' := by
  obtain ⟨c, rest, hc, hkind⟩ := encode_head ha
  refine ⟨c, rest, hc, ?_⟩
  rintro rfl
  exact absurd hkind.symm (Nat.ne_of_lt (kind_lt a))

/-- The first characters tell the kinds apart. -/
theorem kind_eq {a b : Value} (ha : a.WF) (hb : b.WF) {s t : List Char}
    (h : a.encode ++ s = b.encode ++ t) : a.kind = b.kind := by
  obtain ⟨c, rest, hc, hkind⟩ := encode_head ha
  obtain ⟨d, rest', hd, hkind'⟩ := encode_head hb
  rw [hc, hd] at h
  rw [← hkind, ← hkind', (List.cons.inj h).1]

theorem encodeItems_eq (items : List Value) : encodeItems items = separated ',' encode items := by
  induction items with
  | nil => rfl
  | cons v vs ih =>
    cases vs with
    | nil => rfl
    | cons w ws => exact congrArg (fun rest => encode v ++ ',' :: rest) ih

def encodeMember (e : String × Value) : List Char := encodeString e.1 ++ ':' :: encode e.2

theorem encodeMembers_eq (members : List (String × Value)) :
    encodeMembers members = separated ',' encodeMember members := by
  induction members with
  | nil => rfl
  | cons e es ih =>
    obtain ⟨k, v⟩ := e
    cases es with
    | nil => rfl
    | cons d ds =>
      refine (congrArg (fun rest => encodeString k ++ ':' :: (encode v ++ ',' :: rest)) ih).trans ?_
      exact (List.append_assoc (encodeString k) (':' :: encode v) _).symm

theorem encodeMember_decodes {e : String × Value}
    (h : DecodesBefore EndsValue WF encode e.2) :
    DecodesBefore EndsValue (fun e => e.2.WF) encodeMember e := by
  rintro ⟨k, v⟩ hv s t hs ht heq
  rw [encodeMember, encodeMember, List.append_assoc, List.append_assoc] at heq
  obtain ⟨hk, heq⟩ := encodeString_split heq
  obtain ⟨hev, hst⟩ := h v hv s t hs ht (List.cons.inj heq).2
  exact ⟨Prod.ext hk hev, hst⟩

/-- The text of a value stops where something that may follow a value begins. -/
theorem encode_decodes {a : Value} (ha : a.WF) : DecodesBefore EndsValue WF encode a := by
  induction a using Value.induct with
  | null =>
    intro b hb s t _ _ h
    have hkind := kind_eq ha hb h
    cases b with
    | null => exact ⟨rfl, List.append_cancel_left h⟩
    | bool b => cases b <;> cases hkind
    | _ => cases hkind
  | bool x =>
    intro b hb s t _ _ h
    have hkind := kind_eq ha hb h
    cases b with
    | bool y =>
      cases x <;> cases y <;> first | exact ⟨rfl, List.append_cancel_left h⟩ | cases hkind
    | _ => cases x <;> cases hkind
  | number literal =>
    intro b hb s t hs ht h
    have hkind := kind_eq ha hb h
    cases b with
    | number literal' =>
      have heq : literal.toList = literal'.toList := by
        rw [← takeWhile_literal ha hs, ← takeWhile_literal hb ht]
        exact congrArg _ h
      obtain rfl := String.toList_inj.mp heq
      exact ⟨rfl, List.append_cancel_left h⟩
    | bool b => cases b <;> cases hkind
    | _ => cases hkind
  | string x =>
    intro b hb s t _ _ h
    have hkind := kind_eq ha hb h
    cases b with
    | string y =>
      obtain ⟨rfl, hst⟩ := encodeString_split h
      exact ⟨rfl, hst⟩
    | bool b => cases b <;> cases hkind
    | _ => cases hkind
  | array items ih =>
    intro b hb s t _ _ h
    have hkind := kind_eq ha hb h
    cases b with
    | array items' =>
      have hitems := wf_array.mp ha
      rw [encode, encode, encodeItems_eq, encodeItems_eq, List.cons_append, List.cons_append,
        List.append_assoc, List.append_assoc] at h
      obtain ⟨rfl, hst⟩ := separated_decodes (by decide) (by simp [EndsValue]) (by simp [EndsValue])
        (fun v hv => encode_ne_close hv) (fun v hv => ih v hv (hitems v hv)) hitems
        (wf_array.mp hb) (List.cons.inj h).2
      exact ⟨rfl, hst⟩
    | bool b => cases b <;> cases hkind
    | _ => cases hkind
  | object members ih =>
    intro b hb s t _ _ h
    have hkind := kind_eq ha hb h
    cases b with
    | object members' =>
      have hmembers := (wf_object.mp ha).2
      rw [encode, encode, encodeMembers_eq, encodeMembers_eq, List.cons_append, List.cons_append,
        List.append_assoc, List.append_assoc] at h
      obtain ⟨rfl, hst⟩ := separated_decodes (by decide) (by simp [EndsValue]) (by simp [EndsValue])
        (fun e _ => ⟨'"', _, rfl, by decide⟩)
        (fun e he => encodeMember_decodes (ih e he (hmembers e he))) hmembers (wf_object.mp hb).2
        (List.cons.inj h).2
      exact ⟨rfl, hst⟩
    | bool b => cases b <;> cases hkind
    | _ => cases hkind

/-- Comparing texts decides equality. -/
theorem text_inj {a b : Value} (ha : a.WF) (hb : b.WF) (h : a.text = b.text) : a = b := by
  have hchars : a.encode = b.encode := by simpa [text] using congrArg String.toList h
  refine (encode_decodes ha b hb [] [] ?_ ?_ (congrArg (· ++ []) hchars)).1 <;> simp [EndsValue]

end Value

end Schemaform
