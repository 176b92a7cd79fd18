import Schemaform.Engine.ParseSpec

/-!
# Engine.ParseText

Integer text through the library: exact on every number, and exact everywhere where the library
reads numbers from nothing else.

* `canonicalByShift_integer`: what is laid out from digits is an integer.
* `canonicalIntegerWithLimit_object`: what becomes of an object text that is read as a number.
* `parseIntegerWithLimit_number`: what is stored is a number.
* `ExactInteger`: the outcome is the one of the number the text writes.
* `parseIntegerWithLimit_exact`: when it is.
-/

namespace Schemaform.Engine

open Decimal

variable {maximumDigits : Nat}

/-! ## Integers -/

theorem shiftDigits_isDigits {digits shifted : List Char} {shift : Int} (hd : IsDigits digits)
    (h : shiftDigits digits shift maximumDigits = .ok shifted) : IsDigits shifted := by
  unfold shiftDigits at h
  dsimp only at h
  split at h
  · split at h
    · cases h
    · cases h
      exact isDigits_append.mpr ⟨hd, fun c hc => (List.eq_of_mem_replicate hc) ▸ rfl⟩
  · split at h
    · cases h
    · split at h
      · cases h
      · cases h
        exact hd.sublist (List.take_sublist _ _)

theorem head_dropWhile_zero (digits : List Char) :
    (digits.dropWhile (· == '0')).head? ≠ some '0' := by
  intro hhead
  have hnot := List.head?_dropWhile_not (· == '0') digits
  rw [hhead] at hnot
  simp at hnot

theorem isIntegerText_zero : IsIntegerText false ['0'] where
  ne_nil := List.cons_ne_nil _ _
  isDigits := List.forall_mem_singleton.mpr rfl
  leading := fun _ => ⟨rfl, rfl⟩

theorem canonicalByShift_integer {negative : Bool} {whole fraction exponent canonical : List Char}
    (hd : IsDigits (whole ++ fraction))
    (h : canonicalByShift negative whole fraction exponent maximumDigits = .ok canonical) :
    ∃ negative digits, IsIntegerText negative digits ∧
      canonical = integerText negative digits := by
  have hzero : ∃ negative digits, IsIntegerText negative digits ∧
      ['0'] = integerText negative digits := ⟨false, ['0'], isIntegerText_zero, rfl⟩
  unfold canonicalByShift at h
  split at h
  · split at h
    · cases h
    · cases h
      exact hzero
  · cases he : parseExponent exponent with
    | error e =>
      rw [he] at h
      cases h
    | ok n =>
      rw [he] at h
      simp only [bind, Except.bind] at h
      split at h
      · cases h
      · cases hs : shiftDigits ((whole ++ fraction).dropWhile (· == '0')) (n - fraction.length)
            maximumDigits with
        | error e =>
          rw [hs] at h
          cases h
        | ok digits =>
          rw [hs] at h
          dsimp only at h
          split at h
          · cases h
          · split at h
            · cases h
              exact hzero
            · rename_i hne
              cases h
              have hdigits := shiftDigits_isDigits (hd.sublist (List.dropWhile_sublist _)) hs
              exact ⟨negative, _, ⟨hne, hdigits.sublist (List.dropWhile_sublist _),
                fun hhead => absurd hhead (head_dropWhile_zero digits)⟩, rfl⟩

/-- The canonical spelling is read back as it is. -/
theorem JsonParser.fromStr_canonicalInteger (parser : JsonParser) (z : Int) :
    parser.fromStr (String.ofList (canonicalInteger z)) =
      some (.number (String.ofList (canonicalInteger z))) := by
  have hspelling := integerSpelling_wf z
  have htext : canonicalInteger z = integerText (decide (z < 0)) (Nat.toDigits 10 z.natAbs) := by
    unfold canonicalInteger integerText
    by_cases hz : z < 0
    · rw [if_pos hz, if_pos (decide_eq_true hz)]
      rfl
    · rw [if_neg hz, if_neg (by simpa using hz)]
      rfl
  rw [htext]
  refine parser.integer ⟨hspelling.whole_ne, hspelling.whole, fun hhead => ?_⟩
  refine ⟨hspelling.leading hhead, ?_⟩
  by_contra hneg
  have hz : z.natAbs ≠ 0 := by
    intro hzero
    obtain rfl := Int.natAbs_eq_zero.mp hzero
    exact hneg rfl
  exact toDigits_head hz hhead

/-! ## Object texts -/

section ObjectText

variable {before after cs : List Char}

theorem splitExponent_cons {e : Char} (hplain : ∀ c ∈ before, c ≠ 'e' ∧ c ≠ 'E')
    (he : e = 'e' ∨ e = 'E') : splitExponent (before ++ e :: after) = (before, after) := by
  have htake : (before ++ e :: after).takeWhile (fun c => decide (c ≠ 'e' ∧ c ≠ 'E')) = before := by
    rw [List.takeWhile_append_of_pos fun c hc => decide_eq_true (hplain c hc),
      List.takeWhile_cons_of_neg (by rcases he with rfl | rfl <;> decide), List.append_nil]
  unfold splitExponent
  simp only [htake, List.drop_left]

theorem splitExponent_none (hplain : ∀ c ∈ cs, c ≠ 'e' ∧ c ≠ 'E') :
    splitExponent cs = (cs, ['0']) := by
  have htake : cs.takeWhile (fun c => decide (c ≠ 'e' ∧ c ≠ 'E')) = cs :=
    List.takeWhile_eq_self_iff.mpr fun c hc => decide_eq_true (hplain c hc)
  unfold splitExponent
  simp only [htake, List.drop_length]

theorem splitFraction_cons (hplain : '.' ∉ before) :
    splitFraction (before ++ '.' :: after) = (before, after) := by
  have htake : (before ++ '.' :: after).takeWhile (fun c => decide (c ≠ '.')) = before := by
    rw [List.takeWhile_append_of_pos, List.takeWhile_cons_of_neg (by decide), List.append_nil]
    exact fun c hc => decide_eq_true fun h => hplain (h ▸ hc)
  unfold splitFraction
  simp only [htake, List.drop_left]

theorem splitFraction_none (hplain : '.' ∉ cs) : splitFraction cs = (cs, []) := by
  have htake : cs.takeWhile (fun c => decide (c ≠ '.')) = cs :=
    List.takeWhile_eq_self_iff.mpr fun c hc => decide_eq_true fun h => hplain (h ▸ hc)
  unfold splitFraction
  simp only [htake, List.drop_length]

/-- Up to a character, or without it. -/
theorem split_first (p : Char → Bool) (cs : List Char) : (∀ c ∈ cs, p c = true) ∨
    ∃ before c after, cs = before ++ c :: after ∧ (∀ c ∈ before, p c = true) ∧ p c = false := by
  by_cases hall : ∀ c ∈ cs, p c = true
  · exact .inl hall
  · cases hdrop : cs.dropWhile p with
    | nil => exact absurd (List.dropWhile_eq_nil_iff.mp hdrop) hall
    | cons c after =>
      refine .inr ⟨cs.takeWhile p, c, after, ?_, fun c hc => List.mem_takeWhile_imp hc, ?_⟩
      · rw [← hdrop, List.takeWhile_append_dropWhile]
      · have hnot := List.head?_dropWhile_not p cs
        rw [hdrop] at hnot
        simpa using hnot

theorem parseBigInt_brace (h : '}' ∈ cs) : parseBigInt cs = none := by
  have hdigits {cs : List Char} (h : '}' ∈ cs) : parseDigits cs = none := by
    refine if_neg fun hcs => ?_
    have hbrace := List.all_eq_true.mp hcs.2 '}' h
    cases hbrace
  unfold parseBigInt
  split
  · rw [hdigits ((List.mem_cons.mp h).resolve_left (by decide))]
    rfl
  · rw [hdigits ((List.mem_cons.mp h).resolve_left (by decide))]
    rfl
  · rw [hdigits h]
    rfl

/-- The texts refused as no integer among those read as numbers: an exponent with a minus, or a
point and no exponent. -/
def RejectedText (cs : List Char) : Prop :=
  (∃ before e after, cs = before ++ e :: '-' :: after ∧ (e = 'e' ∨ e = 'E') ∧
    ∀ c ∈ before, c ≠ 'e' ∧ c ≠ 'E') ∨
  (∀ c ∈ cs, c ≠ 'e' ∧ c ≠ 'E') ∧ '.' ∈ cs

theorem mem_splitFraction {c : Char} (h : c ∈ cs) (hc : c ≠ '.') :
    c ∈ (splitFraction cs).1 ++ (splitFraction cs).2 := by
  by_cases hpoint : '.' ∈ cs
  · obtain ⟨before, after, rfl, hplain⟩ := List.eq_append_cons_of_mem hpoint
    rw [splitFraction_cons hplain]
    simpa [hc] using h
  · rw [splitFraction_none hpoint, List.append_nil]
    exact h

theorem not_all_zero (h : '{' ∈ cs) : cs.all (· == '0') = false :=
  List.all_eq_false.mpr ⟨'{', h, by decide⟩

theorem canonical_exponent {rest : List Char} {e : Char} (hcs : '{' :: rest = before ++ e :: after)
    (he : e = 'e' ∨ e = 'E') (hplain : ∀ c ∈ before, c ≠ 'e' ∧ c ≠ 'E') (hbrace : '}' ∈ after) :
    canonicalIntegerWithLimit ('{' :: rest) maximumDigits =
      .error (if after.head? = some '-' then .invalidInteger else .resourceLimitExceeded) := by
  have hmem : '{' ∈ before := by
    cases before with
    | nil =>
      obtain ⟨rfl, -⟩ := List.cons.inj hcs
      rcases he with he | he <;> cases he
    | cons c before =>
      obtain ⟨rfl, -⟩ := List.cons.inj hcs
      exact List.mem_cons_self
  have hminus : stripMinus ('{' :: rest) = (false, before ++ e :: after) := by
    rw [← hcs]
    rfl
  have hexponent : parseExponent after =
      .error (if after.head? = some '-' then .invalidInteger else .resourceLimitExceeded) := by
    rw [parseExponent, parseBigInt_brace hbrace]
    rfl
  rw [canonicalIntegerWithLimit_eq, hminus, splitExponent_cons hplain he, canonicalByShift,
    not_all_zero (mem_splitFraction hmem (by decide)), if_neg (by decide), hexponent]
  rfl

theorem canonical_point {rest : List Char} (hcs : '{' :: rest = before ++ '.' :: after)
    (hplain : ∀ c ∈ '{' :: rest, c ≠ 'e' ∧ c ≠ 'E') (hpoint : '.' ∉ before)
    (hbrace : '}' ∈ after) : canonicalIntegerWithLimit ('{' :: rest) maximumDigits =
      .error (if isI64 (0 - (after.length : Int)) then .invalidInteger
        else .resourceLimitExceeded) := by
  have hbefore : ∃ middle, before = '{' :: middle := by
    cases before with
    | nil =>
      obtain ⟨hc, -⟩ := List.cons.inj hcs
      cases hc
    | cons c middle =>
      obtain ⟨rfl, -⟩ := List.cons.inj hcs
      exact ⟨middle, rfl⟩
  obtain ⟨middle, rfl⟩ := hbefore
  have hminus : stripMinus ('{' :: rest) = (false, '{' :: rest) := rfl
  have hpos := List.length_pos_of_mem hbrace
  have hshift : shiftDigits ('{' :: middle ++ after) (0 - (after.length : Int)) maximumDigits =
      .error .invalidInteger := by
    have hdrop : ('{' :: middle ++ after).drop
        (('{' :: middle ++ after).length - (0 - (after.length : Int)).natAbs) = after := by
      have hlength : ('{' :: middle ++ after).length - (0 - (after.length : Int)).natAbs =
          ('{' :: middle).length := by
        rw [List.length_append]
        omega
      rw [hlength, List.drop_left]
    have hnonzero : after.all (· == '0') = false := List.all_eq_false.mpr ⟨'}', hbrace, by decide⟩
    rw [shiftDigits, if_neg (by omega)]
    dsimp only
    rw [hdrop, hnonzero]
    split <;> rfl
  rw [canonicalIntegerWithLimit_eq, hminus, splitExponent_none hplain, hcs,
    splitFraction_cons hpoint, canonicalByShift,
    not_all_zero (List.mem_append_left _ List.mem_cons_self), if_neg (by decide)]
  have hexponent : parseExponent ['0'] = .ok 0 := rfl
  have hdigits : ('{' :: middle ++ after).dropWhile (· == '0') = '{' :: middle ++ after := rfl
  simp only [hexponent, hdigits, hshift, bind, Except.bind]
  cases isI64 (0 - (after.length : Int)) <;> rfl

theorem canonical_object {rest : List Char} (hplain : ∀ c ∈ '{' :: rest, c ≠ 'e' ∧ c ≠ 'E')
    (hpoint : '.' ∉ '{' :: rest) : canonicalIntegerWithLimit ('{' :: rest) maximumDigits =
      if maximumDigits < ('{' :: rest).length then .error .resourceLimitExceeded
      else .ok ('{' :: rest) := by
  have hminus : stripMinus ('{' :: rest) = (false, '{' :: rest) := rfl
  rw [canonicalIntegerWithLimit_eq, hminus, splitExponent_none hplain, splitFraction_none hpoint,
    canonicalByShift, List.append_nil, not_all_zero List.mem_cons_self, if_neg (by decide)]
  have hexponent : parseExponent ['0'] = .ok 0 := rfl
  have hdigits : ('{' :: rest).dropWhile (· == '0') = '{' :: rest := rfl
  have hshift : shiftDigits ('{' :: rest) (0 - (([] : List Char).length : Int)) maximumDigits =
      if maximumDigits < ('{' :: rest).length then .error .resourceLimitExceeded
      else .ok ('{' :: rest) := by
    rw [shiftDigits, if_pos (by simp)]
    simp
  have hword : isI64 (0 - (([] : List Char).length : Int)) = true := rfl
  simp only [hexponent, hdigits, hshift, hword, bind, Except.bind, Bool.not_true,
    Bool.false_eq_true, if_false]
  by_cases hlong : maximumDigits < ('{' :: rest).length
  · rw [if_pos hlong]
  · rw [if_neg hlong]
    dsimp only
    rw [if_neg (by omega)]
    rfl

/-- An object text is refused by what stands in it, or is its own canonical text. -/
theorem canonicalIntegerWithLimit_object (maximumDigits : Nat) (h : IsObjectText cs) :
    (cs.length < 2 ^ 62 →
      (canonicalIntegerWithLimit cs maximumDigits = .error .invalidInteger ↔ RejectedText cs)) ∧
    ∀ canonical, canonicalIntegerWithLimit cs maximumDigits = .ok canonical → canonical = cs := by
  obtain ⟨hhead, hlast⟩ := h
  obtain ⟨rest, rfl⟩ : ∃ rest, cs = '{' :: rest := by
    cases cs with
    | nil => cases hhead
    | cons c rest =>
      cases hhead
      exact ⟨rest, rfl⟩
  have hbrace {before after : List Char} {c : Char} (hcs : '{' :: rest = before ++ c :: after)
      (hc : c ≠ '}') : '}' ∈ after := by
    rw [hcs, List.getLast?_append, List.getLast?_cons] at hlast
    cases hafter : after.getLast? with
    | none =>
      rw [hafter] at hlast
      exact absurd (Option.some.inj hlast) hc
    | some d =>
      rw [hafter] at hlast
      obtain rfl : d = '}' := Option.some.inj hlast
      exact List.mem_of_getLast? hafter
  rcases split_first (fun c => decide (c ≠ 'e' ∧ c ≠ 'E')) ('{' :: rest) with
    hplain | ⟨before, e, after, hcs, hplain, he⟩
  · replace hplain := fun c hc => of_decide_eq_true (hplain c hc)
    by_cases hpoint : '.' ∈ '{' :: rest
    · obtain ⟨before, after, hcs, hfirst⟩ := List.eq_append_cons_of_mem hpoint
      have hshort : after.length ≤ ('{' :: rest).length := by
        rw [hcs, List.length_append, List.length_cons]
        omega
      rw [canonical_point hcs hplain hfirst (hbrace hcs (by decide))]
      refine ⟨fun hlen => ⟨fun _ => .inr ⟨hplain, hpoint⟩, fun _ => ?_⟩, fun _ h => ?_⟩
      · rw [if_pos (isI64_iff.mpr (by omega))]
      · cases h
    · have hnot : ¬ RejectedText ('{' :: rest) := by
        rintro (⟨before, e, after, hcs, he, -⟩ | ⟨-, hmem⟩)
        · have hmem : e ∈ '{' :: rest := by simp [hcs]
          exact he.elim (hplain e hmem).1 (hplain e hmem).2
        · exact hpoint hmem
      rw [canonical_object hplain hpoint]
      refine ⟨fun _ => ⟨fun h => ?_, fun h => absurd h hnot⟩, fun canonical h => ?_⟩
      · split at h <;> cases h
      · split at h
        · cases h
        · cases h
          rfl
  · replace hplain := fun c hc => of_decide_eq_true (hplain c hc)
    have he : e = 'e' ∨ e = 'E' := by
      have hnot := of_decide_eq_false he
      by_contra hneither
      exact hnot (not_or.mp hneither)
    rw [canonical_exponent hcs he hplain (hbrace hcs (by rcases he with rfl | rfl <;> decide))]
    refine ⟨fun _ => ⟨fun h => ?_, fun h => ?_⟩, fun _ h => ?_⟩
    · cases after with
      | nil => cases h
      | cons c after =>
        by_cases hc : c = '-'
        · exact .inl ⟨before, e, after, by rw [hcs, hc], he, hplain⟩
        · rw [if_neg (by simpa using hc)] at h
          cases h
    · rcases h with ⟨before', e', after', hcs', he', hplain'⟩ | ⟨hnone, -⟩
      · have hsplit : splitExponent (before ++ e :: after) = (before, after) :=
          splitExponent_cons hplain he
        rw [← hcs, hcs', splitExponent_cons hplain' he'] at hsplit
        obtain ⟨-, rfl⟩ := Prod.mk.inj hsplit
        rfl
      · have hmem : e ∈ '{' :: rest := by simp [hcs]
        exact absurd he (not_or.mpr (hnone e hmem))
    · cases h

end ObjectText

/-! ## A parser -/

namespace Sample

/-- The object that stands for the number 12 where numbers are texts. -/
def privateNumber : String := "\x7b\"$serde_json::private::Number\":\"12\"\x7d"

def fromStr (text : String) : Option Value :=
  let cs := trimBy isJsonWhitespace text.toList
  if isNumberLiteralChars cs then some (.number (String.ofList cs))
  else if cs = privateNumber.toList then some (.number "12")
  else none

theorem trimBy_spelled (n : NumberSpelling) (h : n.WellFormed) :
    trimBy isJsonWhitespace n.chars = n.chars := by
  obtain ⟨hne, hhead, hlast⟩ := spelled_ends n h (by rfl) fun _ => isJsonWhitespace_digit
  have htrim : trimBy isJsonWhitespace ([] ++ n.chars ++ []) = n.chars :=
    trimBy_append (by simp) hhead hlast hne
  rwa [List.nil_append, List.append_nil] at htrim

theorem fromStr_spelled {text : String} (n : NumberSpelling) (h : n.WellFormed)
    (htext : text.toList = n.chars) : fromStr text = some (.number text) := by
  have hliteral : isNumberLiteralChars n.chars = true := isNumberLiteralChars_iff.mpr ⟨n, h, rfl⟩
  unfold fromStr
  rw [htext, trimBy_spelled n h]
  dsimp only
  rw [if_pos hliteral, ← htext, String.ofList_toList]

/-- The texts of numbers, and of one number as an object. -/
def parser : JsonParser where
  fromStr := fromStr
  wf := by
    intro text value h
    unfold fromStr at h
    dsimp only at h
    split at h
    · rename_i hliteral
      cases h
      show isNumberLiteral _ = true
      rw [isNumberLiteral, String.toList_ofList]
      exact hliteral
    · split at h
      · cases h
        decide
      · cases h
  space := by
    intro before cs after hspace
    unfold fromStr
    rw [String.toList_ofList, String.toList_ofList, trimBy_around hspace]
  number := by
    intro literal h
    obtain ⟨n, hn, hc⟩ := isNumberLiteral_iff.mp h
    exact ⟨literal, fromStr_spelled n hn hc.symm⟩
  integer := by
    intro negative digits h
    refine fromStr_spelled ⟨negative, digits, [], none⟩ ⟨h.isDigits, h.ne_nil,
      fun hhead => (h.leading hhead).1, .nil, by intro _ _ _ hnone; cases hnone⟩ ?_
    rw [String.toList_ofList]
    cases negative <;> simp [integerText, NumberSpelling.chars, NumberSpelling.unsignedChars,
      NumberSpelling.fractionChars, NumberSpelling.exponentChars]
  numberFrom := by
    intro text stored h
    obtain ⟨before, after, hsplit, hspace⟩ := trimBy_split isJsonWhitespace text.toList
    refine ⟨before, _, after, hsplit, hspace, ?_⟩
    unfold fromStr at h
    dsimp only at h
    split at h
    · rename_i hliteral
      exact .inl hliteral
    · split at h
      · rename_i hprivate
        rw [hprivate]
        exact .inr ⟨by rfl, by rfl⟩
      · cases h

end Sample

/-! ## Text -/

variable {parser : JsonParser} {input : String}

theorem trim_length (input : String) : (trim input).length ≤ input.utf8ByteSize := by
  obtain ⟨before, after, hsplit, -⟩ := trimBy_split isWhitespace input.toList
  have hbytes := length_le_bytes input.toList
  rw [String.ofList_toList] at hbytes
  have hlength := congrArg List.length hsplit
  simp only [List.length_append] at hlength
  unfold trim
  omega

/-- A text read as a number, after its canonical text. -/
theorem parseIntegerWithLimit_read {stored : String} (maximumDigits : Nat)
    (h : parser.fromStr input = some (.number stored)) :
    (∀ e, canonicalIntegerWithLimit (trim input) maximumDigits = .error e →
      parseIntegerWithLimit parser input maximumDigits = .error e) ∧
    ∀ canonical value, canonicalIntegerWithLimit (trim input) maximumDigits = .ok canonical →
      parser.fromStr (String.ofList canonical) = some value →
      parseIntegerWithLimit parser input maximumDigits = .ok value := by
  constructor
  · intro e he
    simp only [parseIntegerWithLimit, h, he]
    rfl
  · intro canonical value hc hv
    simp only [parseIntegerWithLimit, h, hc, bind, Except.bind, hv]

/-- What a number or an object text stores is a number. -/
theorem parseIntegerWithLimit_number {v : Value}
    (h : parseIntegerWithLimit parser input maximumDigits = .ok v) :
    ∃ literal, v = .number literal ∧ v.WF := by
  obtain ⟨stored, canonical, hread, hcanonical, hv⟩ := parseIntegerWithLimit_ok h
  suffices hnumber : ∃ literal, v = .number literal by
    obtain ⟨literal, rfl⟩ := hnumber
    exact ⟨literal, rfl, parser.wf hv⟩
  rcases read_number hread with ⟨n, hn, htrim, -⟩ | ⟨hobject, hagain⟩
  · obtain ⟨exponent, -, -, hparts⟩ := canonicalIntegerWithLimit_parts n hn maximumDigits
    rw [htrim, hparts] at hcanonical
    obtain ⟨negative, digits, hinteger, rfl⟩ :=
      canonicalByShift_integer (isDigits_append.mpr ⟨hn.whole, hn.fraction⟩) hcanonical
    rw [parser.integer hinteger] at hv
    exact ⟨_, (Option.some.inj hv).symm⟩
  · obtain rfl := (canonicalIntegerWithLimit_object _ hobject).2 canonical hcanonical
    rw [hagain] at hv
    exact ⟨_, (Option.some.inj hv).symm⟩

/-- The outcome for a text that writes a number. -/
theorem parseIntegerWithLimit_writes (parser : JsonParser) {q : ℚ} (h : WritesNumber input q)
    (hsize : input.utf8ByteSize < 2 ^ 62) (hmax : maximumDigits < 2 ^ 62) :
    (∀ z : Int, q = z → parseIntegerWithLimit parser input maximumDigits =
      if digitCount z ≤ maximumDigits then .ok (.number (String.ofList (canonicalInteger z)))
      else .error .resourceLimitExceeded) ∧
    ((¬ ∃ z : Int, q = z) →
      parseIntegerWithLimit parser input maximumDigits = .error .invalidInteger) := by
  obtain ⟨stored, hstored⟩ := reads_writesNumber h
  obtain ⟨herror, hok⟩ := parseIntegerWithLimit_read maximumDigits hstored
  obtain ⟨n, hn, htrim, rfl⟩ := h.spelled
  have hshort := trim_length input
  obtain ⟨hint, hnone⟩ :=
    canonicalIntegerWithLimit_spelled n hn (by rw [← htrim]; omega) hmax
  rw [← htrim] at hint hnone
  refine ⟨fun z hz => ?_, fun hz => herror _ (hnone hz)⟩
  have hresult := hint z hz
  unfold integerOutcome at hresult
  by_cases hle : digitCount z ≤ maximumDigits
  · rw [if_pos hle] at hresult ⊢
    exact hok _ _ hresult (parser.fromStr_canonicalInteger z)
  · rw [if_neg hle] at hresult ⊢
    exact herror _ hresult

/-- The outcome is the one of the integer the text writes, if it writes one. -/
structure ExactInteger (parser : JsonParser) (input : String) (maximumDigits : Nat) : Prop where
  ok : ∀ v, parseIntegerWithLimit parser input maximumDigits = .ok v ↔
    ∃ z : Int, WritesNumber input z ∧ digitCount z ≤ maximumDigits ∧
      v = .number (String.ofList (canonicalInteger z))
  exceeded : parseIntegerWithLimit parser input maximumDigits = .error .resourceLimitExceeded ↔
    ∃ z : Int, WritesNumber input z ∧ maximumDigits < digitCount z
  invalid : parseIntegerWithLimit parser input maximumDigits = .error .invalidInteger ↔
    ¬ ∃ z : Int, WritesNumber input z

theorem ExactInteger.of_integer {z : Int} (hz : WritesNumber input z)
    (h : parseIntegerWithLimit parser input maximumDigits =
      if digitCount z ≤ maximumDigits then .ok (.number (String.ofList (canonicalInteger z)))
      else .error .resourceLimitExceeded) : ExactInteger parser input maximumDigits where
  ok v := by
    rw [h]
    constructor
    · intro hv
      split at hv
      · rename_i hle
        cases hv
        exact ⟨z, hz, hle, rfl⟩
      · cases hv
    · rintro ⟨z', hz', hle, rfl⟩
      obtain rfl : z = z' := Int.cast_inj.mp (hz.unique hz')
      rw [if_pos hle]
  exceeded := by
    rw [h]
    constructor
    · intro hv
      split at hv
      · cases hv
      · exact ⟨z, hz, by omega⟩
    · rintro ⟨z', hz', hlt⟩
      obtain rfl : z = z' := Int.cast_inj.mp (hz.unique hz')
      rw [if_neg (by omega)]
  invalid := by
    rw [h]
    constructor
    · intro hv
      split at hv <;> cases hv
    · intro hno
      exact absurd ⟨z, hz⟩ hno

theorem ExactInteger.of_none (hz : ¬ ∃ z : Int, WritesNumber input z)
    (h : parseIntegerWithLimit parser input maximumDigits = .error .invalidInteger) :
    ExactInteger parser input maximumDigits where
  ok v := by
    rw [h]
    constructor
    · intro hv
      cases hv
    · rintro ⟨z, hwrites, -⟩
      exact absurd ⟨z, hwrites⟩ hz
  exceeded := by
    rw [h]
    constructor
    · intro hv
      cases hv
    · rintro ⟨z, hwrites, -⟩
      exact absurd ⟨z, hwrites⟩ hz
  invalid := ⟨fun _ => hz, fun _ => h⟩

theorem ExactInteger.of_writes {q : ℚ} (h : WritesNumber input q)
    (hsize : input.utf8ByteSize < 2 ^ 62) (hmax : maximumDigits < 2 ^ 62) :
    ExactInteger parser input maximumDigits := by
  obtain ⟨hint, hnone⟩ := parseIntegerWithLimit_writes parser h hsize hmax
  by_cases hz : ∃ z : Int, q = z
  · obtain ⟨z, rfl⟩ := hz
    exact .of_integer h (hint z rfl)
  · refine .of_none ?_ (hnone hz)
    rintro ⟨z, hwrites⟩
    exact hz ⟨z, h.unique hwrites⟩

/-- Integer text is parsed by the number it writes exactly where what is read as a number is one, or
is refused like a text that is none. No digits are laid out beyond the limit. -/
theorem parseIntegerWithLimit_exact (parser : JsonParser) (input : String) (maximumDigits : Nat)
    (hsize : input.utf8ByteSize < 2 ^ 62) (hmax : maximumDigits < 2 ^ 62) :
    (ExactInteger parser input maximumDigits ↔
      ∀ stored, parser.fromStr input = some (.number stored) →
        (∃ q, WritesNumber input q) ∨ RejectedText (trim input)) ∧
    (∀ cs, canonicalIntegerWithLimit cs maximumDigits =
      canonicalByShift (stripMinus cs).1 (splitFraction (splitExponent (stripMinus cs).2).1).1
        (splitFraction (splitExponent (stripMinus cs).2).1).2
        (splitExponent (stripMinus cs).2).2 maximumDigits) ∧
    ∀ digits shift shifted, shiftDigits digits shift maximumDigits = .ok shifted →
      shifted.length ≤ max digits.length maximumDigits := by
  refine ⟨⟨fun hexact stored hread => ?_, fun h => ?_⟩,
    fun cs => canonicalIntegerWithLimit_eq cs maximumDigits, fun _ _ _ h => shiftDigits_length h⟩
  · -- an object text that is read as a number: its outcome must be that of no number
    rcases read_number hread with ⟨n, -, -, hwrites⟩ | ⟨hobject, hagain⟩
    · exact .inl ⟨n.number, hwrites⟩
    by_cases hwrites : ∃ q, WritesNumber input q
    · exact .inl hwrites
    have hshort := trim_length input
    obtain ⟨hrejected, hself⟩ :=
      canonicalIntegerWithLimit_object maximumDigits hobject
    obtain ⟨herror, hok⟩ := parseIntegerWithLimit_read maximumDigits hread
    have hinvalid := hexact.invalid.mpr fun ⟨z, hz⟩ => hwrites ⟨z, hz⟩
    cases hc : canonicalIntegerWithLimit (trim input) maximumDigits with
    | error e =>
      rw [herror e hc] at hinvalid
      cases hinvalid
      exact .inr ((hrejected (by omega)).mp hc)
    | ok canonical =>
      obtain rfl := hself canonical hc
      rw [hok _ _ hc hagain] at hinvalid
      cases hinvalid
  · by_cases hwrites : ∃ q, WritesNumber input q
    · obtain ⟨q, hq⟩ := hwrites
      exact .of_writes hq hsize hmax
    refine .of_none (fun ⟨z, hz⟩ => hwrites ⟨z, hz⟩) ?_
    unfold parseIntegerWithLimit
    split
    · rename_i stored hread
      rcases read_number hread with ⟨n, -, -, hn⟩ | ⟨hobject, -⟩
      · exact absurd ⟨n.number, hn⟩ hwrites
      have hshort := trim_length input
      have hrejected := (h stored hread).resolve_left hwrites
      rw [((canonicalIntegerWithLimit_object _ hobject).1 (by omega)).mpr hrejected]
      rfl
    · rfl

theorem parseIntegerWithLimit_exact_small :
    ExactInteger Sample.parser " 0.050e+2" 1 ↔
      ∀ stored, Sample.parser.fromStr " 0.050e+2" = some (.number stored) →
        (∃ q, WritesNumber " 0.050e+2" q) ∨ RejectedText (trim " 0.050e+2") :=
  (parseIntegerWithLimit_exact Sample.parser " 0.050e+2" 1 (by decide) (by decide)).1

/-- The object that stands for a number exceeds a limit, and is no number. -/
theorem private_number_not_exact : ¬ ExactInteger Sample.parser Sample.privateNumber 4 := by
  intro h
  have hexceeded : parseIntegerWithLimit Sample.parser Sample.privateNumber 4 =
      .error .resourceLimitExceeded := by rfl
  obtain ⟨z, hz, -⟩ := h.exceeded.mp hexceeded
  obtain ⟨n, hn, htrim, -⟩ := hz.spelled
  have hliteral : isNumberLiteralChars (trim Sample.privateNumber) = true :=
    isNumberLiteralChars_iff.mpr ⟨n, hn, htrim.symm⟩
  exact absurd hliteral (by decide)

end Schemaform.Engine
