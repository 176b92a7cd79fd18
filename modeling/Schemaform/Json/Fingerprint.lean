import Schemaform.Json.Number
import Schemaform.Lib.SelfDelimiting

/-!
# Json.Fingerprint

The bytes a JSON value is hashed by.

* `hashJsonValue`: the stream handed to the hasher.
* `Fingerprintable`: what `serde_json` guarantees, with lengths that fit their prefix.
* `hashJsonValue_decodes`: a stream is split off again and determines its value up to equality.
* `hashJsonValue_congr`: equal values have one stream.
* `hashJsonValue_injective`.
-/

namespace Schemaform

open Decimal SelfDelimiting

def hashFingerprintLength (length : Nat) : List UInt8 := toBeBytes 8 length

def utf8 (s : String) : List UInt8 := s.toByteArray.data.toList

def hashFingerprintBytes (s : String) : List UInt8 :=
  hashFingerprintLength s.utf8ByteSize ++ utf8 s

/-- `entries.sort_unstable_by_key(|(key, _)| *key)` -/
def sortByKey {α : Type} (entries : List (String × α)) : List (String × α) :=
  entries.mergeSort fun a b => decide (a.1 ≤ b.1)

mutual

def hashJsonValue : Value → List UInt8
  | .null => [9]
  | .bool b => [10, b.toUInt8]
  | .number literal =>
    11 :: match numberNormalForm literal with
      | some normal =>
        normal.negative.toUInt8 :: (hashFingerprintBytes (String.ofList normal.significantDigits) ++
          hashFingerprintBytes (String.ofList (canonicalInteger normal.scale)))
      | none => hashFingerprintBytes literal
  | .string s => 12 :: hashFingerprintBytes s
  | .array values => 13 :: (hashFingerprintLength values.length ++ hashJsonItems values)
  | .object values =>
    14 :: (hashFingerprintLength values.length ++
      (sortByKey (hashJsonMembers values)).flatMap fun e => hashFingerprintBytes e.1 ++ e.2)

def hashJsonItems : List Value → List UInt8
  | [] => []
  | v :: vs => hashJsonValue v ++ hashJsonItems vs

/-- The stream of each member behind its key, not yet in order. -/
def hashJsonMembers : List (String × Value) → List (String × List UInt8)
  | [] => []
  | (key, v) :: vs => (key, hashJsonValue v) :: hashJsonMembers vs

end

/-- Every length fits a 64-bit word. -/
inductive FitsWord : Value → Prop where
  | null : FitsWord .null
  | bool (b : Bool) : FitsWord (.bool b)
  | number {literal : String} (size : literal.utf8ByteSize < 2 ^ 64) : FitsWord (.number literal)
  | string {s : String} (size : s.utf8ByteSize < 2 ^ 64) : FitsWord (.string s)
  | array {items : List Value} (length : items.length < 2 ^ 64) (each : ∀ v ∈ items, FitsWord v) :
      FitsWord (.array items)
  | object {members : List (String × Value)} (length : members.length < 2 ^ 64)
      (keys : ∀ e ∈ members, e.1.utf8ByteSize < 2 ^ 64) (each : ∀ e ∈ members, FitsWord e.2) :
      FitsWord (.object members)

/-- A value as `serde_json` holds it. -/
def Fingerprintable (v : Value) : Prop := v.WF ∧ FitsWord v

theorem hashJsonItems_eq (items : List Value) :
    hashJsonItems items = items.flatMap hashJsonValue := by
  induction items with
  | nil => rfl
  | cons v vs ih => rw [hashJsonItems, List.flatMap_cons, ih]

theorem hashJsonMembers_eq (members : List (String × Value)) :
    hashJsonMembers members = members.map fun e => (e.1, hashJsonValue e.2) := by
  induction members with
  | nil => rfl
  | cons e vs ih =>
    obtain ⟨key, v⟩ := e
    rw [hashJsonMembers, List.map_cons, ih]

def hashJsonMember (e : String × Value) : List UInt8 :=
  hashFingerprintBytes e.1 ++ hashJsonValue e.2

/-- The members of an object are in key order already. -/
theorem hashJsonValue_object {members : List (String × Value)} (h : SortedMap.Sorted members) :
    hashJsonValue (.object members) =
      14 :: (hashFingerprintLength members.length ++ members.flatMap hashJsonMember) := by
  rw [hashJsonValue, hashJsonMembers_eq, sortByKey, List.mergeSort_of_pairwise]
  · rw [List.flatMap_map]
    rfl
  · rw [List.pairwise_map]
    exact h.imp fun hlt => decide_eq_true (le_of_lt hlt)

/-! ## Lengths and strings -/

theorem hashFingerprintLength_decodes {length : Nat} (h : length < 2 ^ 64) :
    Decodes (· < 2 ^ 64) (· = ·) hashFingerprintLength length := by
  have hword : (2 : Nat) ^ 64 = 256 ^ 8 := by norm_num
  rw [hword] at h ⊢
  exact toBeBytes_decodes h

theorem utf8_inj {s t : String} (h : utf8 s = utf8 t) : s = t :=
  String.toByteArray_inj.mp (ByteArray.ext (Array.toList_inj.mp h))

theorem hashFingerprintBytes_decodes {s : String} (h : s.utf8ByteSize < 2 ^ 64) :
    Decodes (·.utf8ByteSize < 2 ^ 64) (· = ·) hashFingerprintBytes s := by
  intro t ht rest rest' heq
  rw [hashFingerprintBytes, hashFingerprintBytes, List.append_assoc, List.append_assoc] at heq
  obtain ⟨hlen, heq⟩ := hashFingerprintLength_decodes h _ ht _ _ heq
  obtain ⟨hbytes, hrest⟩ := List.append_inj heq hlen
  exact ⟨utf8_inj hbytes, hrest⟩

/-! ## Numbers -/

theorem utf8ByteSize_ascii {cs : List Char} (h : ∀ c ∈ cs, c.utf8Size = 1) :
    (String.ofList cs).utf8ByteSize = cs.length := by
  induction cs with
  | nil => rfl
  | cons c cs ih =>
    rw [String.ofList_cons, String.utf8ByteSize_append, String.utf8ByteSize_singleton,
      List.length_cons, h c List.mem_cons_self, ih fun c hc => h c (List.mem_cons_of_mem _ hc)]
    omega

theorem utf8Size_digit {c : Char} (h : c.isDigit = true) : c.utf8Size = 1 := by
  simp only [Char.isDigit, Bool.and_eq_true, decide_eq_true_eq] at h
  exact Char.utf8Size_eq_one_iff.mpr (UInt32.le_trans h.2 (by decide))

theorem ascii_canonicalInteger (z : Int) : ∀ c ∈ canonicalInteger z, c.utf8Size = 1 := by
  intro c hc
  rcases List.mem_append.mp hc with hc | hc
  · split at hc
    · rw [List.mem_singleton.mp hc]
      rfl
    · cases hc
  · exact utf8Size_digit (isDigits_toDigits _ c hc)

/-- The digits of an exponent stand behind a digit and an `e`. -/
theorem exponentValue_lt (n : NumberSpelling) (h : n.WellFormed) :
    ∃ d, n.exponentValue.natAbs < 10 ^ d ∧ d + 2 ≤ max n.chars.length 2 := by
  unfold NumberSpelling.exponentValue NumberSpelling.chars NumberSpelling.unsignedChars
    NumberSpelling.exponentChars
  cases he : n.exponent with
  | none => exact ⟨0, by simp, by simp⟩
  | some parts =>
    obtain ⟨e, sign, digits⟩ := parts
    obtain ⟨-, -, hd, -⟩ := h.exponent e sign digits he
    have hlt := value_lt hd
    have hwhole := List.length_pos_of_ne_nil h.whole_ne
    refine ⟨digits.length, ?_, ?_⟩
    · dsimp only
      split <;> omega
    · simp only [List.length_append, List.length_cons]
      omega

theorem canonicalInteger_length {z : Int} {k : Nat} (hk : 0 < k) (h : z.natAbs < 10 ^ k) :
    (canonicalInteger z).length ≤ k + 1 := by
  have hdigits := (Nat.length_toDigits_le_iff (by omega) hk).mpr h
  rw [canonicalInteger, List.length_append]
  split
  · rw [List.length_singleton]
    omega
  · rw [List.length_nil]
    omega

/-- The normal form of a literal is no longer than the literal, up to the length of a word. -/
theorem normalForm_length (n : NumberSpelling) (h : n.WellFormed) (hlen : n.chars.length < 2 ^ 64) :
    n.normalForm.significantDigits.length < 2 ^ 64 ∧
      (canonicalInteger n.normalForm.scale).length < 2 ^ 64 := by
  have hparts := spelled_length n
  unfold NumberSpelling.normalForm
  dsimp only
  split
  · refine ⟨?_, ?_⟩
    · show 1 < 2 ^ 64
      omega
    · show 1 < 2 ^ 64
      omega
  · have hdrop := (List.dropWhile_sublist (l := n.whole ++ n.fraction) (· == '0')).length_le
    have hzeros := trailingZeros_le ((n.whole ++ n.fraction).dropWhile (· == '0'))
    have hfraction : n.fraction.length ≤ (n.whole ++ n.fraction).length := by simp
    generalize (n.whole ++ n.fraction).dropWhile (· == '0') = digits at *
    refine ⟨?_, ?_⟩
    · rw [List.length_take]
      omega
    · obtain ⟨d, hd, hdlen⟩ := exponentValue_lt n h
      have hle : 10 ^ d ≤ 10 ^ max d 20 := Nat.pow_le_pow_right (by omega) (le_max_left _ _)
      have hword : 10 ^ 20 ≤ 10 ^ max d 20 := Nat.pow_le_pow_right (by omega) (le_max_right _ _)
      have hsucc : 10 ^ (max d 20 + 1) = 10 ^ max d 20 * 10 := Nat.pow_succ _ _
      have hscale : (n.exponentValue - n.fraction.length + trailingZeros digits).natAbs <
          10 ^ (max d 20 + 1) := by
        rw [hsucc]
        generalize 10 ^ max d 20 = p at *
        omega
      have hlength := canonicalInteger_length (by omega) hscale
      exact lt_of_le_of_lt hlength (by omega)

theorem toUInt8_inj {a b : Bool} (h : a.toUInt8 = b.toUInt8) : a = b := by
  cases a <;> cases b <;> first | rfl | cases h

theorem hashFingerprintBytes_ascii {cs : List Char} (h : ∀ c ∈ cs, c.utf8Size = 1)
    (hlen : cs.length < 2 ^ 64) :
    Decodes (·.utf8ByteSize < 2 ^ 64) (· = ·) hashFingerprintBytes (String.ofList cs) :=
  hashFingerprintBytes_decodes (by rwa [utf8ByteSize_ascii h])

/-- The normal form behind the tag of a number. -/
def hashNormalForm (normal : NumberNormalForm) : List UInt8 :=
  normal.negative.toUInt8 :: (hashFingerprintBytes (String.ofList normal.significantDigits) ++
    hashFingerprintBytes (String.ofList (canonicalInteger normal.scale)))

theorem hashNormalForm_inj {a b : NumberNormalForm} (ha : a.Canonical)
    (hb : b.Canonical) (hla : a.significantDigits.length < 2 ^ 64)
    (hlb : b.significantDigits.length < 2 ^ 64) (hsa : (canonicalInteger a.scale).length < 2 ^ 64)
    (hsb : (canonicalInteger b.scale).length < 2 ^ 64) {s t : List UInt8}
    (h : hashNormalForm a ++ s = hashNormalForm b ++ t) : a = b ∧ s = t := by
  rw [hashNormalForm, hashNormalForm, List.cons_append, List.cons_append, List.append_assoc,
    List.append_assoc] at h
  obtain ⟨hneg, h⟩ := List.cons.inj h
  have hascii {n : NumberNormalForm} (hn : n.Canonical) :
      ∀ c ∈ n.significantDigits, c.utf8Size = 1 := fun c hc => utf8Size_digit (hn.isDigits c hc)
  have hdigitsize : (String.ofList b.significantDigits).utf8ByteSize < 2 ^ 64 := by
    rwa [utf8ByteSize_ascii (hascii hb)]
  have hscalesize : (String.ofList (canonicalInteger b.scale)).utf8ByteSize < 2 ^ 64 := by
    rwa [utf8ByteSize_ascii (ascii_canonicalInteger _)]
  obtain ⟨hdigits, h⟩ := hashFingerprintBytes_ascii (hascii ha) hla _ hdigitsize _ _ h
  obtain ⟨hscale, h⟩ :=
    hashFingerprintBytes_ascii (ascii_canonicalInteger _) hsa _ hscalesize _ _ h
  have hdigits := String.ofList_injective hdigits
  have hscale := canonicalInteger_inj (String.ofList_injective hscale)
  have hneg := toUInt8_inj hneg
  refine ⟨?_, h⟩
  cases a
  cases b
  simp only [NumberNormalForm.mk.injEq]
  exact ⟨hneg, hdigits, hscale⟩

/-- A literal is hashed by its normal form. -/
theorem hashJsonValue_number {literal : String} (h : isNumberLiteral literal = true)
    (hsize : literal.utf8ByteSize < 2 ^ 64) :
    ∃ normal, numberNormalForm literal = some normal ∧ normal.Canonical ∧
      normal.significantDigits.length < 2 ^ 64 ∧
      (canonicalInteger normal.scale).length < 2 ^ 64 ∧
      hashJsonValue (.number literal) = 11 :: hashNormalForm normal := by
  obtain ⟨n, hn, hc⟩ := isNumberLiteral_iff.mp h
  have hlen := length_le_bytes literal.toList
  rw [String.ofList_toList, ← hc] at hlen
  obtain ⟨hdigits, hscale⟩ := normalForm_length n hn (by omega)
  obtain ⟨normal, hnormal, hcanonical, -⟩ := numberNormalForm_eq ⟨n, hn, hc, rfl⟩
  obtain rfl := Option.some.inj ((numberNormalForm_spelled hn hc).symm.trans hnormal)
  refine ⟨n.normalForm, hnormal, hcanonical, hdigits, hscale, ?_⟩
  rw [hashJsonValue, hnormal]
  rfl

/-! ## Values -/

theorem fingerprintable_array {items : List Value} (h : Fingerprintable (.array items)) :
    items.length < 2 ^ 64 ∧ ∀ v ∈ items, Fingerprintable v := by
  obtain ⟨hwf, hfits⟩ := h
  cases hfits with
  | array hlen heach => exact ⟨hlen, fun v hv => ⟨Value.wf_array.mp hwf v hv, heach v hv⟩⟩

theorem fingerprintable_object {members : List (String × Value)}
    (h : Fingerprintable (.object members)) :
    SortedMap.Sorted members ∧ members.length < 2 ^ 64 ∧
      ∀ e ∈ members, e.1.utf8ByteSize < 2 ^ 64 ∧ Fingerprintable e.2 := by
  obtain ⟨hwf, hfits⟩ := h
  obtain ⟨hsorted, hmembers⟩ := Value.wf_object.mp hwf
  cases hfits with
  | object hlen hkeys heach =>
    exact ⟨hsorted, hlen, fun e he => ⟨hkeys e he, hmembers e he, heach e he⟩⟩

/-- What the tag of a stream says about the value. -/
theorem hashJsonValue_decodes {a : Value} (ha : Fingerprintable a) :
    Decodes Fingerprintable (fun a b => jsonValuesEqual a b = true) hashJsonValue a := by
  induction a using Value.induct with
  | null =>
    intro b hb s t h
    cases b with
    | null => exact ⟨jsonValuesEqual_refl _, (List.cons.inj h).2⟩
    | _ => simp [hashJsonValue] at h
  | bool l =>
    intro b hb s t h
    cases b with
    | bool r =>
      simp only [hashJsonValue, List.cons_append, List.nil_append, List.cons.injEq, true_and] at h
      obtain rfl := toUInt8_inj h.1
      exact ⟨jsonValuesEqual_refl _, h.2⟩
    | _ => simp [hashJsonValue] at h
  | number l =>
    intro b hb s t h
    cases b with
    | number r =>
      obtain ⟨hwl, hfl⟩ := ha
      obtain ⟨hwr, hfr⟩ := hb
      cases hfl with
      | number hsl =>
        cases hfr with
        | number hsr =>
          obtain ⟨nl, hnl, hcl, hdl, hel, hl⟩ := hashJsonValue_number hwl hsl
          obtain ⟨nr, hnr, hcr, hdr, her, hr⟩ := hashJsonValue_number hwr hsr
          rw [hl, hr, List.cons_append, List.cons_append] at h
          obtain ⟨rfl, hst⟩ := hashNormalForm_inj hcl hcr hdl hdr hel her (List.cons.inj h).2
          exact ⟨jsonValuesEqual_number.mpr (numbersEqual_number.mpr (.inr ⟨nl, hnl, hnr⟩)), hst⟩
    | _ => simp [hashJsonValue] at h
  | string l =>
    intro b hb s t h
    cases b with
    | string r =>
      obtain ⟨-, hfl⟩ := ha
      obtain ⟨-, hfr⟩ := hb
      cases hfl with
      | string hsl =>
        cases hfr with
        | string hsr =>
          rw [hashJsonValue, hashJsonValue] at h
          obtain ⟨rfl, hst⟩ := hashFingerprintBytes_decodes hsl r hsr _ _ (List.cons.inj h).2
          exact ⟨jsonValuesEqual_refl _, hst⟩
    | _ => simp [hashJsonValue] at h
  | array l ih =>
    intro b hb s t h
    cases b with
    | array r =>
      obtain ⟨hll, hl⟩ := fingerprintable_array ha
      rw [hashJsonValue, hashJsonValue, hashJsonItems_eq, hashJsonItems_eq] at h
      obtain ⟨hitems, hst⟩ := counted (hashFingerprintLength_decodes hll)
        (fun v hv => ih v hv (hl v hv)) r (fingerprintable_array hb) _ _ (List.cons.inj h).2
      exact ⟨jsonValuesEqual_array.mpr hitems, hst⟩
    | _ => simp [hashJsonValue] at h
  | object l ih =>
    intro b hb s t h
    cases b with
    | object r =>
      obtain ⟨hls, hll, hl⟩ := fingerprintable_object ha
      obtain ⟨hrs, hrl, hr⟩ := fingerprintable_object hb
      rw [hashJsonValue_object hls, hashJsonValue_object hrs] at h
      -- a member is its key and then its value
      have hmember : ∀ e ∈ l, Decodes
          (fun e : String × Value => e.1.utf8ByteSize < 2 ^ 64 ∧ Fingerprintable e.2)
          (fun e f => e.1 = f.1 ∧ jsonValuesEqual e.2 f.2 = true) hashJsonMember e := by
        intro e he
        have hkey := (hashFingerprintBytes_decodes (hl e he).1).comap (g := Prod.fst) (c := e)
          (Q := fun e : String × Value => e.1.utf8ByteSize < 2 ^ 64 ∧ Fingerprintable e.2)
          fun d hd => hd.1
        have hvalue := (ih e he (hl e he).2).comap (g := Prod.snd) (c := e)
          (Q := fun e : String × Value => e.1.utf8ByteSize < 2 ^ 64 ∧ Fingerprintable e.2)
          fun d hd => hd.2
        exact hkey.append hvalue
      obtain ⟨hmembers, hst⟩ := counted (hashFingerprintLength_decodes hll) hmember r ⟨hrl, hr⟩
        _ _ (List.cons.inj h).2
      exact ⟨(jsonValuesEqual_object hls hrs).mpr hmembers, hst⟩
    | _ => simp [hashJsonValue] at h

/-- Equal values are hashed alike. -/
theorem hashJsonValue_congr {a b : Value} (ha : Fingerprintable a) (hb : Fingerprintable b)
    (h : jsonValuesEqual a b = true) : hashJsonValue a = hashJsonValue b := by
  induction a using Value.induct generalizing b with
  | null =>
    cases b with
    | null => rfl
    | _ => simp [jsonValuesEqual_iff] at h
  | bool l =>
    cases b with
    | bool r =>
      obtain rfl : l = r := by simpa [jsonValuesEqual_iff] using h
      rfl
    | _ => simp [jsonValuesEqual_iff] at h
  | number l =>
    obtain ⟨r, rfl⟩ := jsonValuesEqual_number_left h
    rcases numbersEqual_number.mp (jsonValuesEqual_number.mp h) with rfl | ⟨n, hl, hr⟩
    · rfl
    · rw [hashJsonValue, hashJsonValue, hl, hr]
  | string l =>
    cases b with
    | string r =>
      obtain rfl : l = r := by simpa [jsonValuesEqual_iff] using h
      rfl
    | _ => simp [jsonValuesEqual_iff] at h
  | array l ih =>
    obtain ⟨r, rfl⟩ := jsonValuesEqual_array_left h
    have hl := (fingerprintable_array ha).2
    have hr := (fingerprintable_array hb).2
    have hitems := jsonValuesEqual_array.mp h
    rw [hashJsonValue, hashJsonValue, hashJsonItems_eq, hashJsonItems_eq, hitems.length_eq,
      flatMap_congr hitems fun u hu w hw huw => ih u hu (hl u hu) (hr w hw) huw]
  | object l ih =>
    obtain ⟨r, rfl⟩ := jsonValuesEqual_object_left h
    obtain ⟨hls, -, hl⟩ := fingerprintable_object ha
    obtain ⟨hrs, -, hr⟩ := fingerprintable_object hb
    have hmembers := (jsonValuesEqual_object hls hrs).mp h
    rw [hashJsonValue_object hls, hashJsonValue_object hrs, hmembers.length_eq]
    refine congrArg (fun stream => 14 :: (hashFingerprintLength r.length ++ stream)) ?_
    refine flatMap_congr hmembers ?_
    rintro u hu w hw ⟨hkey, huw⟩
    rw [hashJsonMember, hashJsonMember, hkey, ih u hu (hl u hu).2 (hr w hw).2 huw]

theorem hashJsonValue_ne_nil (v : Value) : hashJsonValue v ≠ [] := by
  cases v <;> simp [hashJsonValue]

/-- One stream for each value up to equality, no stream a proper prefix of another, and a
concatenation of streams determines the list of values. -/
theorem hashJsonValue_injective :
    (∀ a b : { v : Value // Fingerprintable v },
      hashJsonValue a.1 = hashJsonValue b.1 ↔ jsonValuesEqual a.1 b.1 = true) ∧
    (∀ a b : { v : Value // Fingerprintable v }, hashJsonValue a.1 <+: hashJsonValue b.1 →
      hashJsonValue a.1 = hashJsonValue b.1) ∧
    ∀ as bs : List { v : Value // Fingerprintable v },
      as.flatMap (fun v => hashJsonValue v.1) = bs.flatMap (fun v => hashJsonValue v.1) ↔
        List.Forall₂ (fun a b => jsonValuesEqual a.1 b.1 = true) as bs := by
  refine ⟨fun a b => ⟨?_, hashJsonValue_congr a.2 b.2⟩, ?_, fun as bs => ⟨fun h => ?_, fun h => ?_⟩⟩
  · exact (hashJsonValue_decodes a.2).related b.2
  · exact fun a b => (hashJsonValue_decodes a.2).not_proper_start b.2
  · refine flatMap_concat (P := fun _ => True) (fun a _ => ?_) (fun _ _ => trivial)
      (fun a => hashJsonValue_ne_nil a.1) h
    exact (hashJsonValue_decodes a.2).comap (g := Subtype.val) fun d _ => d.2
  · exact flatMap_congr h fun a _ b _ hab => hashJsonValue_congr a.2 b.2 hab

end Schemaform
