import Schemaform.Source.Lexer
import Schemaform.Source.Text

/-!
# Source.Strings

The scans read a string literal as the grammar spells it.

* `splitString_stringBytes`: a literal ends at its closing quote.
* `parseHexQuad_bytes`: four digits have their code.
* `jsonStringDecodedLen_stringBytes`: the length without the escapes is that of the text.
-/

namespace Schemaform.Source

/-! ## UTF-8 -/

theorem utf8EncodeChar_ascii {c : Char} (h : c.toNat < 0x80) :
    String.utf8EncodeChar c = [UInt8.ofNat c.toNat] := by
  have hle : c.val.toNat ≤ 0x7F := Nat.le_of_lt_succ h
  unfold String.utf8EncodeChar
  rw [if_pos hle]
  rfl

/-- A byte below 128 is a character of its own. -/
theorem ascii_of_mem_utf8 {c : Char} {byte : UInt8} (h : byte ∈ String.utf8EncodeChar c)
    (hb : byte.toNat < 0x80) : c.toNat = byte.toNat := by
  unfold String.utf8EncodeChar at h
  dsimp only at h
  have hlead : ∀ n : Nat, 0x80 ≤ n % 256 → byte = UInt8.ofNat n → False := by
    intro n hn he
    rw [he, UInt8.toNat_ofNat'] at hb
    omega
  by_cases h1 : c.val.toNat ≤ 0x7F
  · rw [if_pos h1, List.mem_singleton] at h
    rw [h, UInt8.toNat_ofNat']
    show c.val.toNat = c.val.toNat % 256
    omega
  · rw [if_neg h1] at h
    exfalso
    by_cases h2 : c.val.toNat ≤ 0x7FF
    · rw [if_pos h2] at h
      simp only [List.mem_cons, List.not_mem_nil, or_false] at h
      rcases h with h | h <;> exact hlead _ (by omega) h
    · rw [if_neg h2] at h
      by_cases h3 : c.val.toNat ≤ 0xFFFF
      · rw [if_pos h3] at h
        simp only [List.mem_cons, List.not_mem_nil, or_false] at h
        rcases h with h | h | h <;> exact hlead _ (by omega) h
      · rw [if_neg h3] at h
        simp only [List.mem_cons, List.not_mem_nil, or_false] at h
        rcases h with h | h | h | h <;> exact hlead _ (by omega) h

theorem toNat_ofNat_valid {n : Nat} (h : n.isValidChar) : (Char.ofNat n).toNat = n := by
  unfold Char.ofNat
  rw [dif_pos h]
  rfl

/-- A character above the basic plane takes four bytes. -/
theorem utf8Size_supplementary {c : Char} (h : 0xFFFF < c.toNat) : c.utf8Size = 4 := by
  have habove : ∀ bound : UInt32, bound.toNat ≤ 0xFFFF → ¬ c.val ≤ bound := by
    intro bound hbound hle
    have hnat := UInt32.le_iff_toNat_le.mp hle
    have hval : 0xFFFF < c.val.toNat := h
    omega
  unfold Char.utf8Size
  dsimp only
  rw [if_neg (habove _ (by decide)), if_neg (habove _ (by decide)), if_neg (habove _ (by decide))]

/-- Neither a backslash nor a quote. -/
def Plain (bytes : List UInt8) : Prop := ∀ byte ∈ bytes, byte ≠ 0x5C ∧ byte ≠ 0x22

theorem plain_utf8 {c : Char} (h : c ≠ '"' ∧ c ≠ '\\') : Plain (String.utf8EncodeChar c) := by
  intro byte hbyte
  have hne : ∀ d : Char, d.toNat < 0x80 → c ≠ d → byte.toNat ≠ d.toNat := by
    intro d hd hcd he
    have hc := ascii_of_mem_utf8 hbyte (he ▸ hd)
    exact hcd (Char.toNat_inj.mp (hc.trans he))
  constructor
  · intro he
    exact hne '\\' (by decide) h.2 (by rw [he]; rfl)
  · intro he
    exact hne '"' (by decide) h.1 (by rw [he]; rfl)

theorem HexDigit.byte_plain (digit : HexDigit) : digit.byte ≠ 0x5C ∧ digit.byte ≠ 0x22 := by
  obtain ⟨value, upper⟩ := digit
  revert value upper
  decide

theorem HexQuad.bytes_plain (quad : HexQuad) : Plain quad.bytes := by
  intro byte hbyte
  simp only [HexQuad.bytes, List.mem_cons, List.not_mem_nil, or_false] at hbyte
  rcases hbyte with rfl | rfl | rfl | rfl <;> exact HexDigit.byte_plain _

theorem splitString_plains {bytes : List UInt8} (h : Plain bytes) (rest : List UInt8) :
    splitString (bytes ++ rest) = (bytes ++ (splitString rest).1, (splitString rest).2) := by
  induction bytes with
  | nil => rfl
  | cons byte bytes ih =>
    obtain ⟨he, hq⟩ := h byte List.mem_cons_self
    rw [List.cons_append, splitString_plain _ he hq,
      ih fun other ho => h other (List.mem_cons_of_mem _ ho)]
    rfl

theorem splitString_escape (next : UInt8) (rest : List UInt8) :
    splitString (0x5C :: next :: rest) =
      (0x5C :: next :: (splitString rest).1, (splitString rest).2) := by
  rw [splitString, if_pos rfl]

theorem splitString_part (part : StringPart) (rest : List UInt8) :
    splitString (part.bytes ++ rest) = (part.bytes ++ (splitString rest).1,
      (splitString rest).2) := by
  cases part with
  | plain c h => exact splitString_plains (plain_utf8 h.2) rest
  | escape name => exact splitString_escape name.byte rest
  | unicode quad h =>
    show splitString (0x5C :: 0x75 :: (quad.bytes ++ rest)) = _
    rw [splitString_escape, splitString_plains quad.bytes_plain]
    rfl
  | surrogates high low hh hl =>
    have happend : (StringPart.surrogates high low hh hl).bytes ++ rest =
        0x5C :: 0x75 :: (high.bytes ++ 0x5C :: 0x75 :: (low.bytes ++ rest)) := by
      simp [StringPart.bytes]
    rw [happend, splitString_escape, splitString_plains high.bytes_plain, splitString_escape,
      splitString_plains low.bytes_plain]
    simp [StringPart.bytes]

theorem splitString_stringBytes (parts : List StringPart) (rest : List UInt8) :
    splitString (stringBytes parts ++ 0x22 :: rest) = (stringBytes parts, 0x22 :: rest) := by
  induction parts with
  | nil => exact splitString_quote rest
  | cons part parts ih =>
    have hcons : stringBytes (part :: parts) ++ 0x22 :: rest =
        part.bytes ++ (stringBytes parts ++ 0x22 :: rest) := by
      simp [stringBytes]
    rw [hcons, splitString_part, ih]
    simp [stringBytes]

/-! ## Lengths -/

theorem hexDigitValue_byte (digit : HexDigit) :
    hexDigitValue digit.byte = some digit.value.val := by
  obtain ⟨value, upper⟩ := digit
  revert value upper
  decide

theorem parseHexQuad_bytes (quad : HexQuad) : parseHexQuad (some quad.bytes) = some quad.code := by
  simp only [parseHexQuad, HexQuad.bytes, List.foldlM_cons, List.foldlM_nil, hexDigitValue_byte]
  simp [HexQuad.code]

theorem HexQuad.code_lt (quad : HexQuad) : quad.code < 0x10000 := by
  have h1 := quad.first.value.isLt
  have h2 := quad.second.value.isLt
  have h3 := quad.third.value.isLt
  have h4 := quad.fourth.value.isLt
  unfold HexQuad.code
  omega

theorem drop_of_append {bytes right : List UInt8} {index : Nat} (left : List UInt8)
    (h : bytes.drop index = left ++ right) : bytes.drop (index + left.length) = right := by
  rw [← List.drop_drop, h, List.drop_left]

theorem slice_of_drop {bytes left right : List UInt8} {index : Nat} (hi : index ≤ bytes.length)
    (h : bytes.drop index = left ++ right) :
    slice? bytes index (index + left.length) = some left := by
  have hlength := congrArg List.length h
  rw [List.length_drop, List.length_append] at hlength
  rw [slice?, if_pos (by omega), Nat.add_sub_cancel_left, h, List.take_left]

theorem lt_of_drop_cons {bytes rest : List UInt8} {byte : UInt8} {index : Nat}
    (h : bytes.drop index = byte :: rest) : index < bytes.length := by
  have hlength := congrArg List.length h
  rw [List.length_drop, List.length_cons] at hlength
  omega

theorem getElem_of_drop_cons {bytes rest : List UInt8} {byte : UInt8} {index : Nat}
    (h : bytes.drop index = byte :: rest) (hi : index < bytes.length) : bytes[index] = byte := by
  rw [drop_cons hi] at h
  exact (List.cons.inj h).1

theorem decodedLenFrom_plains {bytes plain rest : List UInt8} {index : Nat} (hp : Plain plain)
    (h : bytes.drop index = plain ++ rest) (decoded : Nat) :
    decodedLenFrom bytes index decoded =
      decodedLenFrom bytes (index + plain.length) (decoded + plain.length) := by
  induction plain generalizing index decoded with
  | nil => rfl
  | cons byte plain ih =>
    have hi := lt_of_drop_cons h
    have hbyte := getElem_of_drop_cons h hi
    have hstep : decodedLenFrom bytes index decoded =
        decodedLenFrom bytes (index + 1) (decoded + 1) := by
      rw [decodedLenFrom, dif_pos hi, hbyte, if_pos (hp byte List.mem_cons_self).1]
    have hnext : bytes.drop (index + 1) = plain ++ rest :=
      drop_of_append ([byte]) h
    rw [hstep, ih (fun other ho => hp other (List.mem_cons_of_mem _ ho)) hnext, List.length_cons]
    congr 1 <;> omega

/-- What an escape of four digits adds. -/
theorem decodedLenFrom_unicode {bytes rest : List UInt8} {index : Nat} {quad : HexQuad}
    (h : bytes.drop index = 0x5C :: 0x75 :: (quad.bytes ++ rest)) (decoded : Nat) :
    decodedLenFrom bytes index decoded =
      if (decide (0xD800 ≤ quad.code ∧ quad.code ≤ 0xDBFF) && followedByLow bytes index) = true then
        decodedLenFrom bytes (index + 12) (decoded + 4)
      else decodedLenFrom bytes (index + 6) (decoded + charLen quad.code) := by
  have hi := lt_of_drop_cons h
  have hone : bytes.drop (index + 1) = 0x75 :: (quad.bytes ++ rest) :=
    drop_of_append ([0x5C]) h
  have htwo : bytes.drop (index + 2) = quad.bytes ++ rest :=
    drop_of_append ([0x5C, 0x75]) h
  have hi1 := lt_of_drop_cons hone
  have hslice := slice_of_drop (Nat.succ_le_of_lt hi1) htwo
  rw [decodedLenFrom, dif_pos hi, getElem_of_drop_cons h hi, if_neg (by decide), dif_pos hi1,
    getElem_of_drop_cons hone hi1, if_neg (by decide)]
  have hquad : slice? bytes (index + 2) (index + 6) = some quad.bytes := hslice
  rw [hquad, parseHexQuad_bytes]

theorem decodedLenFrom_part {bytes rest : List UInt8} {index : Nat} {part : StringPart}
    (h : bytes.drop index = part.bytes ++ rest) (decoded : Nat) :
    decodedLenFrom bytes index decoded =
      decodedLenFrom bytes (index + part.bytes.length) (decoded + part.char.utf8Size) := by
  cases part with
  | plain c hc =>
    rw [decodedLenFrom_plains (plain_utf8 hc.2) h]
    show _ = decodedLenFrom bytes (index + (String.utf8EncodeChar c).length) (decoded + c.utf8Size)
    rw [String.length_utf8EncodeChar]
  | escape name =>
    have hi := lt_of_drop_cons h
    have hone : bytes.drop (index + 1) = name.byte :: rest := drop_of_append ([0x5C]) h
    have hi1 := lt_of_drop_cons hone
    rw [decodedLenFrom, dif_pos hi, getElem_of_drop_cons h hi, if_neg (by decide), dif_pos hi1,
      getElem_of_drop_cons hone hi1, if_pos (by cases name <;> decide)]
    cases name <;> rfl
  | unicode quad hs =>
    have hlt := quad.code_lt
    have hhigh : ¬ (0xD800 ≤ quad.code ∧ quad.code ≤ 0xDBFF) := hs.1
    have hlow : ¬ (0xDC00 ≤ quad.code ∧ quad.code ≤ 0xDFFF) := hs.2
    have hvalid : quad.code.isValidChar := by
      unfold Nat.isValidChar
      omega
    rw [decodedLenFrom_unicode h, decide_eq_false hhigh, if_neg (by simp), charLen, if_pos hvalid]
    rfl
  | surrogates high low hh hl =>
    have happend : (StringPart.surrogates high low hh hl).bytes ++ rest =
        0x5C :: 0x75 :: (high.bytes ++ (0x5C :: 0x75 :: low.bytes ++ rest)) := by
      simp [StringPart.bytes]
    rw [happend] at h
    have hsix : bytes.drop (index + 6) = [0x5C, 0x75] ++ (low.bytes ++ rest) :=
      drop_of_append (0x5C :: 0x75 :: high.bytes) h
    have height : bytes.drop (index + 8) = low.bytes ++ rest :=
      drop_of_append (0x5C :: 0x75 :: (high.bytes ++ [0x5C, 0x75])) (by simpa using h)
    have hle : index + 8 ≤ bytes.length := by
      have hlength := congrArg List.length hsix
      simp only [List.length_drop, List.length_append, List.length_cons, List.length_nil] at hlength
      omega
    have hescape : slice? bytes (index + 6) (index + 8) = some [0x5C, 0x75] :=
      slice_of_drop (by omega) hsix
    have hquad : slice? bytes (index + 8) (index + 12) = some low.bytes :=
      slice_of_drop hle height
    have hfollowed : followedByLow bytes index = true := by
      unfold followedByLow
      rw [hescape, hquad, parseHexQuad_bytes]
      simp only [beq_self_eq_true, Bool.true_and, Option.any_some, decide_eq_true_eq]
      exact hl
    have hcond : (decide (0xD800 ≤ high.code ∧ high.code ≤ 0xDBFF) && followedByLow bytes index) =
        true := by
      rw [hfollowed, Bool.and_true, decide_eq_true_eq]
      exact hh
    have hsize : (StringPart.surrogates high low hh hl).char.utf8Size = 4 := by
      obtain ⟨hh1, hh2⟩ := hh
      obtain ⟨hl1, hl2⟩ := hl
      have hvalid : (0x10000 + (high.code - 0xD800) * 0x400 + (low.code - 0xDC00)).isValidChar := by
        unfold Nat.isValidChar
        omega
      have hnat := toNat_ofNat_valid hvalid
      refine utf8Size_supplementary ?_
      show 0xFFFF < (Char.ofNat _).toNat
      rw [hnat]
      omega
    rw [decodedLenFrom_unicode h, if_pos hcond, hsize]
    rfl

theorem decodedLenFrom_stringBytes {bytes : List UInt8} {index : Nat} {parts : List StringPart}
    (h : bytes.drop index = stringBytes parts) (decoded : Nat) :
    decodedLenFrom bytes index decoded = decoded + (stringText parts).utf8ByteSize := by
  induction parts generalizing index decoded with
  | nil =>
    have hi : ¬ index < bytes.length := by
      intro hi
      rw [drop_cons hi] at h
      cases h
    rw [decodedLenFrom, dif_neg hi]
    rfl
  | cons part parts ih =>
    have happend : bytes.drop index = part.bytes ++ stringBytes parts := h
    rw [decodedLenFrom_part happend, ih (drop_of_append _ happend)]
    simp only [stringText, List.map_cons, String.ofList_cons, String.utf8ByteSize_append,
      String.utf8ByteSize_singleton]
    omega

theorem jsonStringDecodedLen_stringBytes (parts : List StringPart) :
    jsonStringDecodedLen (stringBytes parts) = (stringText parts).utf8ByteSize := by
  rw [jsonStringDecodedLen, decodedLenFrom_stringBytes List.drop_zero, Nat.zero_add]

end Schemaform.Source
