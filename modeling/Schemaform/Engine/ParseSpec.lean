import Schemaform.Engine.Parse
import Schemaform.Json.Number

/-!
# Engine.ParseSpec

Integer texts and the digits they are brought to.

* `WritesNumber`: a JSON number with white space around it.
* `read_number`: what the library reads as a number.
* `digitCount`: the digits of an integer.
* `shiftDigits`: the one place that lays out digits, never beyond the limit.
* `canonicalIntegerWithLimit_spelled`: the outcome by the number a literal denotes.
-/

namespace Schemaform.Engine

open Decimal

/-- A JSON number with JSON white space around it. -/
def WritesNumber (input : String) (q : ℚ) : Prop :=
  ∃ before literal after, input.toList = before ++ literal.toList ++ after ∧
    (∀ c ∈ before ++ after, isJsonWhitespace c = true) ∧ Denotes literal q

def digitCount (z : Int) : Nat := (Nat.toDigits 10 z.natAbs).length

/-! ## White space -/

theorem isWhitespace_of_json {c : Char} (h : isJsonWhitespace c = true) :
    isWhitespace c = true := by
  simp only [isJsonWhitespace, Bool.or_eq_true, beq_iff_eq] at h
  rcases h with ((rfl | rfl) | rfl) | rfl <;> rfl

theorem isWhitespace_digit {c : Char} (h : c.isDigit = true) : isWhitespace c = false := by
  obtain ⟨hlow, hhigh⟩ := Char.isDigit_iff_toNat.mp h
  have hzero : '0'.toNat = 48 := rfl
  have hnine : '9'.toNat = 57 := rfl
  simp only [isWhitespace, Bool.or_eq_false_iff, Bool.and_eq_false_iff, decide_eq_false_iff_not,
    beq_eq_false_iff_ne]
  omega

theorem isJsonWhitespace_digit {c : Char} (h : c.isDigit = true) : isJsonWhitespace c = false := by
  cases hc : isJsonWhitespace c with
  | false => rfl
  | true =>
    have hspace := isWhitespace_of_json hc
    rw [isWhitespace_digit h] at hspace
    cases hspace

section Trim

variable {p : Char → Bool} {before cs after : List Char}

theorem trimBy_append (hspace : ∀ c ∈ before ++ after, p c = true)
    (hhead : ∀ c ∈ cs.head?, p c = false) (hlast : ∀ c ∈ cs.getLast?, p c = false)
    (hne : cs ≠ []) : trimBy p (before ++ cs ++ after) = cs := by
  have hbefore : ∀ c ∈ before, p c = true := fun c hc => hspace c (List.mem_append_left _ hc)
  have hafter : ∀ c ∈ after.reverse, p c = true :=
    fun c hc => hspace c (List.mem_append_right _ (List.mem_reverse.mp hc))
  have hstop {l : List Char} (rest : List Char) (hl : l ≠ [])
      (h : ∀ c ∈ l.head?, p c = false) : (l ++ rest).dropWhile p = l ++ rest := by
    obtain ⟨c, l, rfl⟩ := List.exists_cons_of_ne_nil hl
    exact List.dropWhile_cons_of_neg (by simp [h c rfl])
  rw [trimBy, List.append_assoc, List.dropWhile_append_of_pos hbefore, hstop _ hne hhead,
    List.reverse_append, List.dropWhile_append_of_pos hafter]
  have hrev := hstop [] (List.reverse_ne_nil_iff.mpr hne)
    (by simpa [List.head?_reverse] using hlast)
  rw [List.append_nil] at hrev
  rw [hrev, List.reverse_reverse]

theorem trimBy_split (p : Char → Bool) (cs : List Char) : ∃ before after,
    cs = before ++ trimBy p cs ++ after ∧ ∀ c ∈ before ++ after, p c = true := by
  refine ⟨cs.takeWhile p, ((cs.dropWhile p).reverse.takeWhile p).reverse, ?_, ?_⟩
  · rw [trimBy, List.append_assoc, ← List.reverse_append, List.takeWhile_append_dropWhile,
      List.reverse_reverse, List.takeWhile_append_dropWhile]
  · intro c hc
    rcases List.mem_append.mp hc with hc | hc
    · exact List.mem_takeWhile_imp hc
    · exact List.mem_takeWhile_imp (List.mem_reverse.mp hc)

theorem trimBy_ends (p : Char → Bool) (cs : List Char) :
    (∀ c ∈ (trimBy p cs).head?, p c = false) ∧ ∀ c ∈ (trimBy p cs).getLast?, p c = false := by
  constructor
  · intro c hc
    rw [trimBy, List.head?_reverse] at hc
    have hmem := List.mem_of_getLast? hc
    have hsuffix := List.dropWhile_suffix p (l := (cs.dropWhile p).reverse)
    obtain ⟨dropped, hdropped⟩ := hsuffix
    have hlast : (cs.dropWhile p).reverse.getLast? = some c := by
      rw [← hdropped, List.getLast?_append, hc]
      rfl
    rw [List.getLast?_reverse] at hlast
    have hnot := List.head?_dropWhile_not p cs
    rw [hlast] at hnot
    simpa using hnot
  · intro c hc
    rw [trimBy, List.getLast?_reverse] at hc
    have hnot := List.head?_dropWhile_not p (cs.dropWhile p).reverse
    rw [hc] at hnot
    simpa using hnot

/-- White space around a text is trimmed with that of the text. -/
theorem trimBy_around (hspace : ∀ c ∈ before ++ after, p c = true) :
    trimBy p (before ++ cs ++ after) = trimBy p cs := by
  obtain ⟨left, right, hsplit, hsides⟩ := trimBy_split p cs
  obtain ⟨hhead, hlast⟩ := trimBy_ends p cs
  have hall : ∀ c ∈ (before ++ left) ++ (right ++ after), p c = true := by
    intro c hc
    simp only [List.mem_append] at hc hspace hsides
    rcases hc with (hc | hc) | (hc | hc)
    · exact hspace c (.inl hc)
    · exact hsides c (.inl hc)
    · exact hsides c (.inr hc)
    · exact hspace c (.inr hc)
  have hwhole : before ++ cs ++ after = (before ++ left) ++ trimBy p cs ++ (right ++ after) := by
    conv_lhs => rw [hsplit]
    simp only [List.append_assoc]
  rw [hwhole]
  by_cases hnil : trimBy p cs = []
  · rw [hnil, List.append_nil]
    have hdrop : ((before ++ left) ++ (right ++ after)).dropWhile p = [] :=
      List.dropWhile_eq_nil_iff.mpr hall
    rw [trimBy, hdrop]
    rfl
  · exact trimBy_append hall hhead hlast hnil

end Trim

/-- A literal begins with a minus or a digit and ends with a digit. -/
theorem spelled_ends (n : NumberSpelling) (h : n.WellFormed) {p : Char → Bool}
    (hminus : p '-' = false) (hdigit : ∀ c, c.isDigit = true → p c = false) :
    n.chars ≠ [] ∧ (∀ c ∈ n.chars.head?, p c = false) ∧ ∀ c ∈ n.chars.getLast?, p c = false := by
  obtain ⟨w, ws, hw⟩ := List.exists_cons_of_ne_nil h.whole_ne
  have hwd := (isDigits_cons.mp (hw ▸ h.whole)).1
  have hdigits {ds : List Char} (hd : IsDigits ds) : ∀ c ∈ ds.getLast?, p c = false :=
    fun c hc => hdigit c (hd c (List.mem_of_getLast? hc))
  refine ⟨?_, ?_, ?_⟩
  · simp [NumberSpelling.chars, NumberSpelling.unsignedChars, h.whole_ne]
  · intro c hc
    cases hneg : n.negative with
    | true =>
      obtain rfl : '-' = c := by simpa [NumberSpelling.chars, hneg] using hc
      exact hminus
    | false =>
      obtain rfl : w = c := by
        simpa [NumberSpelling.chars, NumberSpelling.unsignedChars, hneg, hw] using hc
      exact hdigit _ hwd
  · have hunsigned : ∀ c ∈ n.unsignedChars.getLast?, p c = false := by
      unfold NumberSpelling.unsignedChars NumberSpelling.exponentChars NumberSpelling.fractionChars
      cases he : n.exponent with
      | some parts =>
        obtain ⟨e, sign, digits⟩ := parts
        obtain ⟨-, -, hd, hne⟩ := h.exponent e sign digits he
        have happend : n.whole ++ ((if n.fraction = [] then [] else '.' :: n.fraction) ++
            e :: (sign ++ digits)) = (n.whole ++ ((if n.fraction = [] then [] else
              '.' :: n.fraction) ++ e :: sign)) ++ digits := by simp
        rw [happend, List.getLast?_append_of_ne_nil _ hne]
        exact hdigits hd
      | none =>
        by_cases hf : n.fraction = []
        · rw [if_pos hf, List.nil_append, List.append_nil]
          exact hdigits h.whole
        · have happend : n.whole ++ ((if n.fraction = [] then [] else '.' :: n.fraction) ++ []) =
              (n.whole ++ ['.']) ++ n.fraction := by simp [hf]
          rw [happend, List.getLast?_append_of_ne_nil _ hf]
          exact hdigits h.fraction
    have hne : n.unsignedChars ≠ [] := by simp [NumberSpelling.unsignedChars, h.whole_ne]
    rw [NumberSpelling.chars, List.getLast?_append_of_ne_nil _ hne]
    exact hunsigned

theorem trim_spelled {input : String} {before after : List Char} (n : NumberSpelling)
    (h : n.WellFormed) (hsplit : input.toList = before ++ n.chars ++ after)
    (hspace : ∀ c ∈ before ++ after, isJsonWhitespace c = true) : trim input = n.chars := by
  obtain ⟨hne, hhead, hlast⟩ := spelled_ends n h (by rfl) fun _ => isWhitespace_digit
  rw [trim, hsplit]
  exact trimBy_append (fun c hc => isWhitespace_of_json (hspace c hc)) hhead hlast hne

theorem trim_object {input : String} {before cs after : List Char} (h : IsObjectText cs)
    (hsplit : input.toList = before ++ cs ++ after)
    (hspace : ∀ c ∈ before ++ after, isJsonWhitespace c = true) : trim input = cs := by
  obtain ⟨hhead, hlast⟩ := h
  rw [trim, hsplit]
  refine trimBy_append (fun c hc => isWhitespace_of_json (hspace c hc)) ?_ ?_ ?_
  · rw [hhead]
    rintro c ⟨⟩
    rfl
  · rw [hlast]
    rintro c ⟨⟩
    rfl
  · rintro rfl
    cases hhead

/-! ## Reading -/

section Reading

variable {parser : JsonParser} {input : String}

theorem reads_writesNumber {q : ℚ} (h : WritesNumber input q) :
    ∃ stored, parser.fromStr input = some (.number stored) := by
  obtain ⟨before, literal, after, hsplit, hspace, n, hn, hc, -⟩ := h
  obtain ⟨stored, hstored⟩ := parser.number (isNumberLiteral_iff.mpr ⟨n, hn, hc⟩)
  have hread : parser.fromStr (String.ofList (before ++ literal.toList ++ after)) =
      parser.fromStr (String.ofList literal.toList) := parser.space hspace
  rw [← hsplit, String.ofList_toList, String.ofList_toList, hstored] at hread
  exact ⟨stored, hread⟩

/-- What is read as a number is one, or is the object text itself when it is trimmed. -/
theorem read_number {stored : String} (h : parser.fromStr input = some (.number stored)) :
    (∃ n : NumberSpelling, n.WellFormed ∧ trim input = n.chars ∧ WritesNumber input n.number) ∨
    IsObjectText (trim input) ∧
      parser.fromStr (String.ofList (trim input)) = some (.number stored) := by
  obtain ⟨before, cs, after, hsplit, hspace, hnumber | hobject⟩ := parser.numberFrom h
  · obtain ⟨n, hn, rfl⟩ := isNumberLiteralChars_iff.mp hnumber
    refine .inl ⟨n, hn, trim_spelled n hn hsplit hspace, before, String.ofList n.chars, after, ?_,
      hspace, n, hn, by rw [String.toList_ofList], rfl⟩
    rw [hsplit, String.toList_ofList]
  · rw [trim_object hobject hsplit hspace]
    refine .inr ⟨hobject, ?_⟩
    rw [← parser.space hspace, ← hsplit, String.ofList_toList, h]

end Reading

theorem WritesNumber.spelled {input : String} {q : ℚ} (h : WritesNumber input q) :
    ∃ n : NumberSpelling, n.WellFormed ∧ trim input = n.chars ∧ n.number = q := by
  obtain ⟨before, literal, after, hsplit, hspace, n, hn, hc, hq⟩ := h
  exact ⟨n, hn, trim_spelled n hn (hc ▸ hsplit) hspace, hq⟩

theorem WritesNumber.unique {input : String} {p q : ℚ} (hp : WritesNumber input p)
    (hq : WritesNumber input q) : p = q := by
  obtain ⟨m, hm, htm, rfl⟩ := hp.spelled
  obtain ⟨n, hn, htn, rfl⟩ := hq.spelled
  have hchars : m.chars = n.chars := htm.symm.trans htn
  have hdenotes : Denotes (String.ofList n.chars) m.number :=
    ⟨m, hm, by rw [String.toList_ofList, hchars], rfl⟩
  exact hdenotes.unique ⟨n, hn, by rw [String.toList_ofList], rfl⟩

/-! ## Shifting the point -/

/-- The digits of `digits * 10 ^ shift`: zeros are appended only up to the limit, and taken away
only where there are zeros. -/
def shiftDigits (digits : List Char) (shift : Int) (maximumDigits : Nat) :
    Except ParseBlocker (List Char) :=
  if 0 ≤ shift then
    if digits.length + shift.toNat > maximumDigits then .error .resourceLimitExceeded
    else .ok (digits ++ List.replicate shift.toNat '0')
  else
    let removed := shift.natAbs
    if removed ≥ digits.length then .error .invalidInteger
    else
      let split := digits.length - removed
      if !(digits.drop split).all (· == '0') then .error .invalidInteger
      else .ok (digits.take split)

/-- No digits are laid out beyond the limit. -/
theorem shiftDigits_length {digits shifted : List Char} {shift : Int} {maximumDigits : Nat}
    (h : shiftDigits digits shift maximumDigits = .ok shifted) :
    shifted.length ≤ max digits.length maximumDigits := by
  unfold shiftDigits at h
  dsimp only at h
  split at h
  · split at h
    · cases h
    · cases h
      rw [List.length_append, List.length_replicate]
      omega
  · split at h
    · cases h
    · split at h
      · cases h
      · cases h
        rw [List.length_take]
        omega

variable {digits : List Char} {negative : Bool} {shift : Int} {maximumDigits : Nat}

/-- Digits of an integer with its first digit in place. -/
structure DigitsOf (z : Int) (digits : List Char) : Prop where
  isDigits : IsDigits digits
  ne_nil : digits ≠ []
  head : digits.head? ≠ some '0'
  value : Decimal.value digits = z.natAbs

theorem DigitsOf.toDigits {z : Int} (h : DigitsOf z digits) :
    Nat.toDigits 10 z.natAbs = digits := by
  rw [← h.value]
  exact toDigits_value h.isDigits h.ne_nil h.head

theorem natAbs_signed (negative : Bool) (n : Nat) :
    ((if negative then -1 else 1) * (n : Int)).natAbs = n := by
  cases negative <;> simp

theorem scaled_ofNat (negative : Bool) (n : Nat) :
    scaled negative n 0 = ((if negative then -1 else 1) * (n : Int) : Int) := by
  cases negative <;> simp [scaled]

theorem digits_ne_zero (hd : IsDigits digits) (hne : digits ≠ []) (h0 : digits.head? ≠ some '0') :
    value digits ≠ 0 := by
  obtain ⟨c, cs, rfl⟩ := List.exists_cons_of_ne_nil hne
  intro hzero
  have := (value_eq_zero hd).mp hzero c List.mem_cons_self
  exact h0 (by simp [this])

/-- Scaled by a nonnegative power, digits denote the integer with zeros appended. -/
theorem scaled_up (negative : Bool) (hd : IsDigits digits) (hne : digits ≠ [])
    (h0 : digits.head? ≠ some '0') (k : Nat) : ∃ z : Int, scaled negative (value digits) k = z ∧
      DigitsOf z (digits ++ List.replicate k '0') := by
  refine ⟨_, scaled_nonneg negative (value digits) k, ?_, by simp [hne], ?_, ?_⟩
  · exact isDigits_append.mpr ⟨hd, fun c hc => (List.eq_of_mem_replicate hc) ▸ rfl⟩
  · rwa [List.head?_append_of_ne_nil _ hne]
  · rw [value_append, value_replicate_zero, List.length_replicate, natAbs_signed]
    ring

/-- Scaled by a negative power, digits denote an integer exactly when they end in as many zeros. -/
theorem scaled_down (negative : Bool) (hd : IsDigits digits) (hne : digits ≠ [])
    (h0 : digits.head? ≠ some '0')
    {removed : Nat} (hpos : 0 < removed) :
    (∃ z : Int, scaled negative (value digits) (-removed) = z) ↔
      removed < digits.length ∧ ∀ c ∈ digits.drop (digits.length - removed), c = '0' := by
  have hvalue := digits_ne_zero hd hne h0
  have hpow : (10 : ℚ) ^ removed ≠ 0 := by positivity
  -- an integer exactly when the power divides the digits
  have hdvd : (∃ z : Int, scaled negative (value digits) (-removed) = z) ↔
      10 ^ removed ∣ value digits := by
    constructor
    · rintro ⟨z, hz⟩
      have habs := congrArg (|·|) hz
      simp only [abs_scaled, ← Int.cast_abs, zpow_neg, zpow_natCast] at habs
      rw [mul_inv_eq_iff_eq_mul₀ hpow] at habs
      have hint : (value digits : Int) = |z| * 10 ^ removed := by exact_mod_cast habs
      have : ((10 ^ removed : Nat) : Int) ∣ value digits := ⟨|z|, by rw [hint]; push_cast; ring⟩
      exact_mod_cast this
    · rintro ⟨m, hm⟩
      refine ⟨(if negative then -1 else 1) * (m : Int), ?_⟩
      rw [← scaled_ofNat, hm, Nat.mul_comm, scaled_add, neg_add_cancel]
  rw [hdvd]
  constructor
  · intro h
    have hle := Nat.le_of_dvd (Nat.pos_of_ne_zero hvalue) h
    have hlt : removed < digits.length := by
      have hhigh := value_lt hd
      by_contra hge
      have := Nat.pow_le_pow_right (by omega : 0 < 10) (by omega : digits.length ≤ removed)
      omega
    refine ⟨hlt, ?_⟩
    have hdrop : IsDigits (digits.drop (digits.length - removed)) :=
      hd.sublist (List.drop_sublist _ _)
    refine (value_eq_zero hdrop).mp ?_
    have hlen : (digits.drop (digits.length - removed)).length = removed := by
      rw [List.length_drop]
      omega
    have hsplit : value digits =
        10 ^ removed * value (digits.take (digits.length - removed)) +
          value (digits.drop (digits.length - removed)) := by
      conv_lhs => rw [← List.take_append_drop (digits.length - removed) digits]
      rw [value_append, hlen]
    have hsmall := value_lt hdrop
    rw [hlen] at hsmall
    rw [hsplit] at h
    exact Nat.eq_zero_of_dvd_of_lt ((Nat.dvd_add_right (Nat.dvd_mul_right _ _)).mp h) hsmall
  · rintro ⟨hlt, hzeros⟩
    have hlen : (digits.drop (digits.length - removed)).length = removed := by
      rw [List.length_drop]
      omega
    have hdrop := (value_eq_zero (hd.sublist (List.drop_sublist (digits.length - removed) _))).mpr
      hzeros
    refine ⟨value (digits.take (digits.length - removed)), ?_⟩
    conv_lhs => rw [← List.take_append_drop (digits.length - removed) digits]
    rw [value_append, hlen, hdrop, Nat.add_zero]

/-- The digits left are those of the integer. -/
theorem scaled_take (hd : IsDigits digits) (hne : digits ≠ []) (h0 : digits.head? ≠ some '0')
    {removed : Nat} (hpos : 0 < removed) {z : Int}
    (hz : scaled negative (value digits) (-removed) = z) :
    DigitsOf z (digits.take (digits.length - removed)) := by
  obtain ⟨hlt, hzeros⟩ := (scaled_down negative hd hne h0 hpos).mp ⟨z, hz⟩
  have hlen : (digits.drop (digits.length - removed)).length = removed := by
    rw [List.length_drop]
    omega
  have hdrop := (value_eq_zero (hd.sublist (List.drop_sublist (digits.length - removed) _))).mpr
    hzeros
  have hsplit : value digits = value (digits.take (digits.length - removed)) * 10 ^ removed := by
    conv_lhs => rw [← List.take_append_drop (digits.length - removed) digits]
    rw [value_append, hlen, hdrop, Nat.add_zero, Nat.mul_comm]
  rw [hsplit, scaled_add, neg_add_cancel, scaled_ofNat, Int.cast_inj] at hz
  refine ⟨hd.sublist (List.take_sublist _ _), ?_, ?_, ?_⟩
  · simp only [ne_eq, List.take_eq_nil_iff, hne, or_false]
    omega
  · rw [List.head?_take, if_neg (by omega)]
    exact h0
  · rw [← hz, natAbs_signed]

theorem shiftDigits_spec (hd : IsDigits digits) (hne : digits ≠ []) (h0 : digits.head? ≠ some '0')
    (negative : Bool) (shift : Int) (maximumDigits : Nat) :
    (∀ z : Int, scaled negative (value digits) shift = z → ∃ shifted, DigitsOf z shifted ∧
      shiftDigits digits shift maximumDigits =
        if 0 ≤ shift ∧ maximumDigits < shifted.length then .error .resourceLimitExceeded
        else .ok shifted) ∧
    ((¬ ∃ z : Int, scaled negative (value digits) shift = z) →
      shiftDigits digits shift maximumDigits = .error .invalidInteger) := by
  by_cases hshift : 0 ≤ shift
  · obtain ⟨k, rfl⟩ := Int.eq_ofNat_of_zero_le hshift
    obtain ⟨z, hz, hdigits⟩ := scaled_up negative hd hne h0 k
    refine ⟨fun z' hz' => ?_, fun hnone => absurd ⟨z, hz⟩ hnone⟩
    obtain rfl : z = z' := Int.cast_inj.mp (hz.symm.trans hz')
    refine ⟨_, hdigits, ?_⟩
    rw [shiftDigits, if_pos hshift]
    simp only [hshift, true_and, List.length_append, List.length_replicate, Int.toNat_natCast,
      gt_iff_lt]
  · obtain ⟨removed, rfl⟩ : ∃ removed : Nat, shift = -(removed : Int) :=
      ⟨shift.natAbs, by omega⟩
    have hpos : 0 < removed := by omega
    have hdown := scaled_down negative hd hne h0 hpos
    have hfinal : shiftDigits digits (-removed) maximumDigits =
        if removed < digits.length ∧ ∀ c ∈ digits.drop (digits.length - removed), c = '0' then
          .ok (digits.take (digits.length - removed)) else .error .invalidInteger := by
      rw [shiftDigits, if_neg hshift]
      simp only [Int.natAbs_neg, Int.natAbs_natCast, Bool.not_eq_true', List.all_eq_false,
        beq_iff_eq]
      split
      · rename_i hge
        rw [if_neg fun h => absurd h.1 (by omega)]
      · rename_i hlt
        split
        · rename_i hnonzero
          obtain ⟨c, hc, hc0⟩ := hnonzero
          rw [if_neg fun h => hc0 (h.2 c hc)]
        · rename_i hzeros
          push Not at hzeros
          rw [if_pos ⟨by omega, hzeros⟩]
    refine ⟨fun z hz => ⟨_, scaled_take hd hne h0 hpos hz, ?_⟩, fun hnone => ?_⟩
    · rw [hfinal, if_pos (hdown.mp ⟨z, hz⟩), if_neg (fun h => hshift h.1)]
    · rw [hfinal, if_neg (fun h => hnone (hdown.mpr h))]

/-! ## Literals -/

/-- The outcome for the number a text writes. -/
def integerOutcome (maximumDigits : Nat) (z : Int) : Except ParseBlocker (List Char) :=
  if digitCount z ≤ maximumDigits then .ok (canonicalInteger z) else .error .resourceLimitExceeded

/-- After the digits are laid out: the limit, and the sign. -/
theorem finish_eq (maximumDigits : Nat) {z : Int} (h : DigitsOf z digits)
    (hneg : z < 0 ↔ negative = true) :
    (if digits.length > maximumDigits then Except.error ParseBlocker.resourceLimitExceeded
      else if digits.dropWhile (· == '0') = [] then .ok ['0']
      else .ok (if negative then '-' :: digits.dropWhile (· == '0')
        else digits.dropWhile (· == '0'))) = integerOutcome maximumDigits z := by
  have hdrop : digits.dropWhile (· == '0') = digits := by
    obtain ⟨c, cs, rfl⟩ := List.exists_cons_of_ne_nil h.ne_nil
    exact List.dropWhile_cons_of_neg (by simpa using h.head)
  have hsign : (if negative then '-' :: digits else digits) =
      (if z < 0 then ['-'] else []) ++ digits := by
    cases negative with
    | true => simp [hneg]
    | false => simp [hneg]
  rw [integerOutcome, digitCount, canonicalInteger, h.toDigits, hdrop, hsign]
  by_cases hle : digits.length ≤ maximumDigits
  · have hgt : ¬ digits.length > maximumDigits := by omega
    simp only [hle, hgt, h.ne_nil, if_true, if_false]
  · have hgt : digits.length > maximumDigits := by omega
    simp only [hle, hgt, if_true, if_false]

/-- The parser on the parts of a text, the digits laid out by `shiftDigits`. -/
def canonicalByShift (negative : Bool) (whole fraction exponent : List Char) (maximumDigits : Nat) :
    Except ParseBlocker (List Char) :=
  if (whole ++ fraction).all (· == '0') then
    if maximumDigits = 0 then .error .resourceLimitExceeded else .ok ['0']
  else do
    let exponent ← parseExponent exponent
    let shift := exponent - fraction.length
    if !isI64 shift then throw (if exponent < 0 then .invalidInteger else .resourceLimitExceeded)
    let digits ← shiftDigits ((whole ++ fraction).dropWhile (· == '0')) shift maximumDigits
    if digits.length > maximumDigits then throw .resourceLimitExceeded
    if digits.dropWhile (· == '0') = [] then return ['0']
    return integerText negative (digits.dropWhile (· == '0'))

theorem canonicalIntegerWithLimit_eq (cs : List Char) (maximumDigits : Nat) :
    canonicalIntegerWithLimit cs maximumDigits =
      canonicalByShift (stripMinus cs).1 (splitFraction (splitExponent (stripMinus cs).2).1).1
        (splitFraction (splitExponent (stripMinus cs).2).1).2
        (splitExponent (stripMinus cs).2).2 maximumDigits := by
  unfold canonicalIntegerWithLimit canonicalByShift
  generalize stripMinus cs = signed
  obtain ⟨negative, unsigned⟩ := signed
  dsimp only
  generalize splitExponent unsigned = scaled
  obtain ⟨significand, exponent⟩ := scaled
  dsimp only
  generalize splitFraction significand = parts
  obtain ⟨whole, fraction⟩ := parts
  dsimp only
  by_cases hall : (whole ++ fraction).all (· == '0') = true
  · rw [if_pos hall, if_pos hall]
    by_cases hmax : maximumDigits = 0
    · rw [if_pos hmax, if_pos hmax]
      rfl
    · rw [if_neg hmax, if_neg hmax]
      rfl
  · rw [if_neg hall, if_neg hall]
    refine congrArg (parseExponent exponent >>= ·) (funext fun exponent => ?_)
    generalize exponent - (fraction.length : Int) = shift
    generalize (whole ++ fraction).dropWhile (· == '0') = digits
    by_cases hword : (!isI64 shift) = true
    · rw [if_pos hword, if_pos hword]
      rfl
    · rw [if_neg hword, if_neg hword, shiftDigits]
      by_cases hshift : 0 ≤ shift
      · rw [if_pos hshift, if_pos hshift]
        by_cases hlong : digits.length + shift.toNat > maximumDigits
        · rw [if_pos hlong, if_pos hlong]
          rfl
        · rw [if_neg hlong, if_neg hlong]
          rfl
      · rw [if_neg hshift, if_neg hshift]
        dsimp only
        by_cases hshort : shift.natAbs ≥ digits.length
        · rw [if_pos hshort, if_pos hshort]
          rfl
        · rw [if_neg hshort, if_neg hshort]
          by_cases hzeros : (!(digits.drop (digits.length - shift.natAbs)).all (· == '0')) = true
          · rw [if_pos hzeros, if_pos hzeros]
            rfl
          · rw [if_neg hzeros, if_neg hzeros]
            rfl

theorem canonicalIntegerWithLimit_parts (n : NumberSpelling) (h : n.WellFormed)
    (maximumDigits : Nat) : ∃ exponent, parseBigInt exponent = some n.exponentValue ∧
      (if exponent.head? = some '-' then n.exponentValue ≤ 0 else 0 ≤ n.exponentValue) ∧
      canonicalIntegerWithLimit n.chars maximumDigits =
        canonicalByShift n.negative n.whole n.fraction exponent maximumDigits := by
  obtain ⟨exponent, hsplit, hvalue, hsign⟩ := splitExponent_spelled n h
  refine ⟨exponent, hvalue, hsign, ?_⟩
  rw [canonicalIntegerWithLimit_eq, stripMinus_spelled n h, hsplit, splitFraction_spelled n h]

/-- A shift past the limit: an integer of more digits. -/
theorem integerOutcome_large (negative : Bool) (hd : IsDigits digits) (hne : digits ≠ [])
    (h0 : digits.head? ≠ some '0') (hshift : maximumDigits < shift) :
    ∃ z : Int, scaled negative (value digits) shift = z ∧
      integerOutcome maximumDigits z = .error .resourceLimitExceeded := by
  obtain ⟨k, rfl⟩ := Int.eq_ofNat_of_zero_le (show 0 ≤ shift by omega)
  obtain ⟨z, hz, hdigits⟩ := scaled_up negative hd hne h0 k
  refine ⟨z, hz, ?_⟩
  have hlen : digitCount z = digits.length + k := by
    rw [digitCount, hdigits.toDigits, List.length_append, List.length_replicate]
  rw [integerOutcome, if_neg (by omega)]

/-- A shift that takes every digit away: no integer. -/
theorem not_integer_small (negative : Bool) (hd : IsDigits digits) (hne : digits ≠ [])
    (h0 : digits.head? ≠ some '0') (hshift : shift ≤ -digits.length) :
    ¬ ∃ z : Int, scaled negative (value digits) shift = z := by
  have hpos := List.length_pos_of_ne_nil hne
  obtain ⟨removed, rfl⟩ : ∃ removed : Nat, shift = -(removed : Int) := ⟨shift.natAbs, by omega⟩
  intro hz
  have := ((scaled_down negative hd hne h0 (by omega)).mp hz).1
  omega

theorem isI64_iff {n : Int} : isI64 n = true ↔ -(2 ^ 63) ≤ n ∧ n < 2 ^ 63 := decide_eq_true_iff

theorem parseExponent_eq {exponent : List Char} {value : Int}
    (h : parseBigInt exponent = some value) : parseExponent exponent =
      if isI64 value then .ok value
      else .error (if exponent.head? = some '-' then .invalidInteger
        else .resourceLimitExceeded) := by
  rw [parseExponent, h]
  cases hword : isI64 value with
  | true => rw [Option.filter_some, hword]; rfl
  | false => rw [Option.filter_some, hword]; rfl

/-- The outcome by the number the literal denotes. -/
theorem canonicalIntegerWithLimit_spelled (n : NumberSpelling) (h : n.WellFormed)
    (hlen : n.chars.length < 2 ^ 62) (hmax : maximumDigits < 2 ^ 62) :
    (∀ z : Int, n.number = z →
      canonicalIntegerWithLimit n.chars maximumDigits = integerOutcome maximumDigits z) ∧
    ((¬ ∃ z : Int, n.number = z) →
      canonicalIntegerWithLimit n.chars maximumDigits = .error .invalidInteger) := by
  obtain ⟨exponent, hvalue, hsign, heq⟩ := canonicalIntegerWithLimit_parts n h maximumDigits
  rw [canonicalByShift] at heq
  have hall : IsDigits (n.whole ++ n.fraction) := isDigits_append.mpr ⟨h.whole, h.fraction⟩
  have hbytes := spelled_length n
  have hfraction : n.fraction.length ≤ (n.whole ++ n.fraction).length := by simp
  by_cases hzero : (n.whole ++ n.fraction).all (· == '0') = true
  · -- zero, whatever its exponent
    have hzeros : value (n.whole ++ n.fraction) = 0 :=
      (value_eq_zero hall).mpr fun c hc => by simpa using List.all_eq_true.mp hzero c hc
    have hnumber : n.number = ((0 : Int) : ℚ) := by
      rw [n.number_eq, hzeros]
      simp [scaled]
    refine ⟨fun z hz => ?_, fun hnone => absurd ⟨0, hnumber⟩ hnone⟩
    obtain rfl : (0 : Int) = z := Int.cast_inj.mp (hnumber.symm.trans hz)
    rw [heq, if_pos hzero, integerOutcome, show digitCount 0 = 1 from rfl]
    by_cases hm : maximumDigits = 0
    · rw [if_pos hm, if_neg (by omega)]
    · rw [if_neg hm, if_pos (by omega)]
      rfl
  · have hnumber := n.number_eq
    rw [← value_dropWhile] at hnumber
    rw [if_neg hzero, parseExponent_eq hvalue] at heq
    have hd : IsDigits ((n.whole ++ n.fraction).dropWhile (· == '0')) :=
      hall.sublist (List.dropWhile_sublist _)
    have hne : (n.whole ++ n.fraction).dropWhile (· == '0') ≠ [] := by
      intro hnil
      refine hzero (List.all_eq_true.mpr fun c hc => ?_)
      exact List.dropWhile_eq_nil_iff.mp hnil c hc
    have h0 : ((n.whole ++ n.fraction).dropWhile (· == '0')).head? ≠ some '0' := by
      intro hhead
      have hnot := List.head?_dropWhile_not (· == '0') (n.whole ++ n.fraction)
      rw [hhead] at hnot
      simp at hnot
    have hshort := (List.dropWhile_sublist (l := n.whole ++ n.fraction) (· == '0')).length_le
    generalize (n.whole ++ n.fraction).dropWhile (· == '0') = digits at *
    have hlarge (hshift : (maximumDigits : Int) < n.exponentValue - n.fraction.length)
        (hresult : canonicalIntegerWithLimit n.chars maximumDigits =
          .error .resourceLimitExceeded) :
        (∀ z : Int, n.number = z →
          canonicalIntegerWithLimit n.chars maximumDigits = integerOutcome maximumDigits z) ∧
        ((¬ ∃ z : Int, n.number = z) →
          canonicalIntegerWithLimit n.chars maximumDigits = .error .invalidInteger) := by
      obtain ⟨z, hz, hout⟩ := integerOutcome_large n.negative hd hne h0 hshift
      refine ⟨fun z' hz' => ?_, fun hnone => absurd ⟨z, hnumber.trans hz⟩ hnone⟩
      obtain rfl : z = z' := Int.cast_inj.mp ((hnumber.trans hz).symm.trans hz')
      rw [hresult, hout]
    have hsmall (hshift : n.exponentValue - n.fraction.length ≤ -digits.length)
        (hresult : canonicalIntegerWithLimit n.chars maximumDigits = .error .invalidInteger) :
        (∀ z : Int, n.number = z →
          canonicalIntegerWithLimit n.chars maximumDigits = integerOutcome maximumDigits z) ∧
        ((¬ ∃ z : Int, n.number = z) →
          canonicalIntegerWithLimit n.chars maximumDigits = .error .invalidInteger) := by
      have hnone := not_integer_small n.negative hd hne h0 hshift
      rw [← hnumber] at hnone
      exact ⟨fun z hz => absurd ⟨z, hz⟩ hnone, fun _ => hresult⟩
    by_cases hword : isI64 n.exponentValue = true
    · have hrange := isI64_iff.mp hword
      rw [if_pos hword] at heq
      by_cases hshift : isI64 (n.exponentValue - n.fraction.length) = true
      · obtain ⟨hint, hnone⟩ := shiftDigits_spec hd hne h0 n.negative
          (n.exponentValue - n.fraction.length) maximumDigits
        rw [← hnumber] at hint hnone
        simp only [bind, Except.bind, hshift, Bool.not_true, Bool.false_eq_true, if_false] at heq
        refine ⟨fun z hz => ?_, fun hz => ?_⟩
        · obtain ⟨shifted, hshifted, hresult⟩ := hint z hz
          have hneg : z < 0 ↔ n.negative = true := by
            rw [← Int.cast_lt_zero (R := ℚ), ← hz, hnumber]
            exact scaled_neg (digits_ne_zero hd hne h0)
          have hfinish := finish_eq maximumDigits hshifted hneg
          rw [heq, hresult, ← hfinish]
          by_cases hlong : 0 ≤ n.exponentValue - n.fraction.length ∧
              maximumDigits < shifted.length
          · rw [if_pos hlong, if_pos hlong.2]
          · rw [if_neg hlong]
            by_cases hlong : shifted.length > maximumDigits
            · rw [if_pos hlong]
              simp only [hlong, if_true]
              rfl
            · rw [if_neg hlong]
              simp only [hlong, if_false]
              split <;> rfl
        · rw [heq, hnone hz]
      · have hout := mt isI64_iff.mpr hshift
        refine hsmall (by omega) ?_
        rw [heq]
        simp only [bind, Except.bind, hshift]
        rw [if_pos (by simp), if_pos (by omega)]
        rfl
    · rw [if_neg hword] at heq
      have hout := mt isI64_iff.mpr hword
      by_cases hminus : exponent.head? = some '-'
      · rw [if_pos hminus] at hsign
        rw [if_pos hminus] at heq
        exact hsmall (by omega) heq
      · rw [if_neg hminus] at hsign
        rw [if_neg hminus] at heq
        exact hlarge (by omega) heq

end Schemaform.Engine
