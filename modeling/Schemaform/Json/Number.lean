import Schemaform.Json.Equal
import Schemaform.Lib.Decimal
import Schemaform.Lib.ListEdit
import Mathlib.Tactic.FieldSimp
import Mathlib.Data.List.TakeWhile

/-!
# Json.Number

The number a JSON literal writes.

* `NumberSpelling`: a literal by its parts, and the rational number they denote.
* `isNumberLiteral_iff`: the literals are the spellings.
* `Denotes`: a literal and its number.
* `numberNormalForm_eq`: the normal form of a literal denotes its number, with digits that neither
  begin nor end with zero.
* `numbersEqual_iff`, `numberIsInteger_iff`: equality of literals is equality of numbers.
* `canonicalInteger`: the decimal spelling of an integer.
* `SameJson`: the same structure, with numbers equal as rationals; `jsonValuesEqual_iff_same`.
-/

namespace Schemaform

open Decimal

structure NumberSpelling where
  negative : Bool
  whole : List Char
  /-- The digits after the point, none without a point. -/
  fraction : List Char
  /-- The `e`, the sign and the digits. -/
  exponent : Option (Char × List Char × List Char)

namespace NumberSpelling

variable (n : NumberSpelling)

structure WellFormed : Prop where
  whole : IsDigits n.whole
  whole_ne : n.whole ≠ []
  /-- A zero stands alone. -/
  leading : n.whole.head? = some '0' → n.whole = ['0']
  fraction : IsDigits n.fraction
  exponent : ∀ e sign digits, n.exponent = some (e, sign, digits) →
    (e = 'e' ∨ e = 'E') ∧ (sign = [] ∨ sign = ['+'] ∨ sign = ['-']) ∧ IsDigits digits ∧ digits ≠ []

def fractionChars : List Char := if n.fraction = [] then [] else '.' :: n.fraction

def exponentChars : List Char :=
  match n.exponent with
  | none => []
  | some (e, sign, digits) => e :: (sign ++ digits)

def unsignedChars : List Char := n.whole ++ (n.fractionChars ++ n.exponentChars)

def chars : List Char := (if n.negative then ['-'] else []) ++ n.unsignedChars

def exponentValue : Int :=
  match n.exponent with
  | none => 0
  | some (_, sign, digits) => (if sign = ['-'] then -1 else 1) * value digits

/-- `± (whole + 0.fraction) * 10 ^ exponent` -/
def number : ℚ :=
  (if n.negative then -1 else 1) * (value n.whole + value n.fraction / 10 ^ n.fraction.length) *
    10 ^ n.exponentValue

/-- All the digits, as one natural number. -/
theorem number_eq : n.number =
    scaled n.negative (value (n.whole ++ n.fraction)) (n.exponentValue - n.fraction.length) := by
  have h10 : (10 : ℚ) ≠ 0 := by norm_num
  have hpow : (10 : ℚ) ^ n.fraction.length ≠ 0 := by positivity
  rw [number, scaled, value_append, zpow_sub₀ h10, zpow_natCast]
  push_cast
  field_simp

end NumberSpelling

/-- The literal of a number. -/
def Denotes (literal : String) (q : ℚ) : Prop :=
  ∃ n : NumberSpelling, n.WellFormed ∧ n.chars = literal.toList ∧ n.number = q

theorem spelled_length (n : NumberSpelling) :
    (n.whole ++ n.fraction).length ≤ n.chars.length := by
  rw [NumberSpelling.chars, NumberSpelling.unsignedChars, NumberSpelling.fractionChars]
  simp only [List.length_append]
  by_cases hnil : n.fraction = []
  · rw [hnil, List.length_nil]
    omega
  · rw [if_neg hnil, List.length_cons]
    omega

theorem length_le_bytes (cs : List Char) : cs.length ≤ (String.ofList cs).utf8ByteSize := by
  induction cs with
  | nil => exact Nat.zero_le _
  | cons c cs ih =>
    have hpos := c.utf8Size_pos
    rw [String.ofList_cons, String.utf8ByteSize_append, String.utf8ByteSize_singleton,
      List.length_cons]
    omega

/-! ## The grammar -/

/-- No digit continues the list. -/
def EndsDigits (cs : List Char) : Prop := ∀ c ∈ cs.head?, c.isDigit = false

theorem dropWhile_digits {ds rest : List Char} (hd : IsDigits ds) (hr : EndsDigits rest) :
    (ds ++ rest).dropWhile Char.isDigit = rest := by
  induction ds with
  | nil =>
    cases rest with
    | nil => rfl
    | cons c rest => exact List.dropWhile_cons_of_neg (by simp [hr c rfl])
  | cons c ds ih =>
    obtain ⟨hc, hds⟩ := isDigits_cons.mp hd
    rw [List.cons_append, List.dropWhile_cons_of_pos hc, ih hds]

theorem takeDigits_eq {ds rest : List Char} (hd : IsDigits ds) (hne : ds ≠ [])
    (hr : EndsDigits rest) : takeDigits (ds ++ rest) = some rest := by
  cases ds with
  | nil => exact absurd rfl hne
  | cons c ds =>
    obtain ⟨hc, hds⟩ := isDigits_cons.mp hd
    simp only [List.cons_append, takeDigits, hc, if_true, dropWhile_digits hds hr]

theorem takeDigits_some {cs rest : List Char} (h : takeDigits cs = some rest) :
    ∃ ds, cs = ds ++ rest ∧ IsDigits ds ∧ ds ≠ [] ∧ EndsDigits rest := by
  cases cs with
  | nil => cases h
  | cons c cs =>
    simp only [takeDigits] at h
    split at h
    · rename_i hc
      cases h
      refine ⟨c :: cs.takeWhile Char.isDigit, ?_, ?_, by simp, ?_⟩
      · rw [List.cons_append, List.takeWhile_append_dropWhile]
      · exact isDigits_cons.mpr ⟨hc, fun d hd => List.mem_takeWhile_imp hd⟩
      · intro d hd
        have := List.head?_dropWhile_not Char.isDigit cs
        rw [Option.mem_def.mp hd] at this
        simpa using this
    · cases h

theorem endsDigits_exponent (n : NumberSpelling) (h : n.WellFormed) :
    EndsDigits n.exponentChars := by
  intro c hc
  unfold NumberSpelling.exponentChars at hc
  cases he : n.exponent with
  | none => simp [he] at hc
  | some parts =>
    obtain ⟨e, sign, digits⟩ := parts
    rw [he] at hc
    obtain rfl : e = c := by simpa using hc
    rcases (h.exponent e sign digits he).1 with rfl | rfl <;> rfl

theorem endsDigits_fraction (n : NumberSpelling) (h : n.WellFormed) :
    EndsDigits (n.fractionChars ++ n.exponentChars) := by
  unfold NumberSpelling.fractionChars
  split
  · exact endsDigits_exponent n h
  · intro c hc
    obtain rfl : '.' = c := by simpa using hc
    rfl

theorem dropExponent_spelled (n : NumberSpelling) (h : n.WellFormed) :
    dropExponent n.exponentChars = some [] := by
  unfold NumberSpelling.exponentChars
  cases he : n.exponent with
  | none => rfl
  | some parts =>
    obtain ⟨e, sign, digits⟩ := parts
    obtain ⟨hE, hsign, hd, hne⟩ := h.exponent e sign digits he
    have htake : takeDigits digits = some [] := by
      have hends : EndsDigits [] := by simp [EndsDigits]
      simpa using takeDigits_eq hd hne hends
    have hE' : (e = 'e' ∨ e = 'E') = True := eq_true hE
    rcases hsign with rfl | rfl | rfl
    · obtain ⟨d, ds, rfl⟩ := List.exists_cons_of_ne_nil hne
      have hdig := (isDigits_cons.mp hd).1
      have hplus : d ≠ '+' := fun heq => by subst heq; cases hdig
      have hminus : d ≠ '-' := fun heq => by subst heq; cases hdig
      simp only [List.nil_append, dropExponent, hE', if_true]
      split
      · rename_i heq
        exact absurd (List.cons.inj heq).1 hplus
      · rename_i heq
        exact absurd (List.cons.inj heq).1 hminus
      · exact htake
    · simp only [List.cons_append, List.nil_append, dropExponent, hE', if_true, htake]
    · simp only [List.cons_append, List.nil_append, dropExponent, hE', if_true, htake]

theorem dropFraction_spelled (n : NumberSpelling) (h : n.WellFormed) :
    dropFraction (n.fractionChars ++ n.exponentChars) = some n.exponentChars := by
  unfold NumberSpelling.fractionChars
  split
  · have hends := endsDigits_exponent n h
    rw [List.nil_append]
    unfold dropFraction
    split
    · rename_i rest heq
      -- an exponent does not begin with a point
      unfold NumberSpelling.exponentChars at heq
      cases he : n.exponent with
      | none => simp [he] at heq
      | some parts =>
        obtain ⟨e, sign, digits⟩ := parts
        rw [he] at heq
        obtain rfl := (List.cons.inj heq).1
        rcases (h.exponent '.' sign digits he).1 with hE | hE <;> cases hE
    · rfl
  · rename_i hne
    exact takeDigits_eq h.fraction hne (endsDigits_exponent n h)

theorem dropWhole_spelled (n : NumberSpelling) (h : n.WellFormed) :
    dropWhole n.unsignedChars = some (n.fractionChars ++ n.exponentChars) := by
  unfold NumberSpelling.unsignedChars
  by_cases hzero : n.whole.head? = some '0'
  · rw [h.leading hzero]
    rfl
  · obtain ⟨c, ds, hw⟩ := List.exists_cons_of_ne_nil h.whole_ne
    have hc : c ≠ '0' := by simpa [hw] using hzero
    have htake := takeDigits_eq h.whole h.whole_ne (endsDigits_fraction n h)
    rw [hw] at htake ⊢
    unfold dropWhole
    split
    · rename_i heq
      exact absurd (List.cons.inj heq).1 hc
    · exact htake

theorem head_ne_minus (n : NumberSpelling) (h : n.WellFormed) :
    ∃ c cs, n.unsignedChars = c :: cs ∧ c ≠ '-' := by
  obtain ⟨c, ds, hw⟩ := List.exists_cons_of_ne_nil h.whole_ne
  have hc := (isDigits_cons.mp (hw ▸ h.whole)).1
  refine ⟨c, ds ++ (n.fractionChars ++ n.exponentChars), ?_, ?_⟩
  · simp [NumberSpelling.unsignedChars, hw]
  · rintro rfl
    cases hc

theorem stripMinus_spelled (n : NumberSpelling) (h : n.WellFormed) :
    stripMinus n.chars = (n.negative, n.unsignedChars) := by
  obtain ⟨c, cs, hcs, hc⟩ := head_ne_minus n h
  unfold NumberSpelling.chars
  cases n.negative with
  | true => rfl
  | false =>
    simp only [Bool.false_eq_true, if_false, List.nil_append, hcs]
    unfold stripMinus
    split
    · rename_i heq
      exact absurd (List.cons.inj heq).1 hc
    · rfl

theorem isNumberLiteralChars_eq (cs : List Char) : isNumberLiteralChars cs =
    (((dropWhole (stripMinus cs).2).bind dropFraction).bind dropExponent == some []) := by
  unfold isNumberLiteralChars stripMinus
  cases cs with
  | nil => rfl
  | cons c rest =>
    by_cases hc : c = '-'
    · subst hc
      rfl
    · grind

theorem takeDigits_exponent {cs : List Char} {e : Char} (he : e = 'e' ∨ e = 'E')
    {sign : List Char} (hsign : sign = [] ∨ sign = ['+'] ∨ sign = ['-'])
    (h : takeDigits cs = some []) : ∃ digits, e :: (sign ++ cs) = e :: (sign ++ digits) ∧
      (e = 'e' ∨ e = 'E') ∧ (sign = [] ∨ sign = ['+'] ∨ sign = ['-']) ∧
      IsDigits digits ∧ digits ≠ [] := by
  obtain ⟨ds, hcs, hd, hne, -⟩ := takeDigits_some h
  rw [List.append_nil] at hcs
  exact ⟨ds, by rw [hcs], he, hsign, hd, hne⟩

/-- What an exponent that is read to its end consists of. -/
theorem dropExponent_some {cs : List Char} (h : dropExponent cs = some []) :
    cs = [] ∨ ∃ e sign digits, cs = e :: (sign ++ digits) ∧ (e = 'e' ∨ e = 'E') ∧
      (sign = [] ∨ sign = ['+'] ∨ sign = ['-']) ∧ IsDigits digits ∧ digits ≠ [] := by
  cases cs with
  | nil => exact .inl rfl
  | cons e cs =>
    right
    simp only [dropExponent] at h
    split at h
    · rename_i he
      split at h
      · obtain ⟨digits, hspelled⟩ := takeDigits_exponent he (.inr (.inl rfl)) h
        exact ⟨e, ['+'], digits, hspelled⟩
      · obtain ⟨digits, hspelled⟩ := takeDigits_exponent he (.inr (.inr rfl)) h
        exact ⟨e, ['-'], digits, hspelled⟩
      · obtain ⟨digits, hspelled⟩ := takeDigits_exponent he (.inl rfl) h
        exact ⟨e, [], digits, hspelled⟩
    · cases h

theorem dropFraction_some {cs rest : List Char} (h : dropFraction cs = some rest) :
    ∃ fraction, cs = (if fraction = [] then [] else '.' :: fraction) ++ rest ∧
      IsDigits fraction := by
  unfold dropFraction at h
  split at h
  · obtain ⟨ds, hcs, hd, hne, -⟩ := takeDigits_some h
    exact ⟨ds, by rw [if_neg hne, List.cons_append, hcs], hd⟩
  · cases h
    exact ⟨[], by simp, .nil⟩

theorem dropWhole_some {cs rest : List Char} (h : dropWhole cs = some rest) :
    ∃ whole, cs = whole ++ rest ∧ IsDigits whole ∧ whole ≠ [] ∧
      (whole.head? = some '0' → whole = ['0']) := by
  unfold dropWhole at h
  split at h
  · cases h
    exact ⟨['0'], rfl, by simp [IsDigits], by simp, fun _ => rfl⟩
  · rename_i hzero
    obtain ⟨ds, hcs, hd, hne, -⟩ := takeDigits_some h
    refine ⟨ds, hcs, hd, hne, ?_⟩
    intro h0
    obtain ⟨c, ds', rfl⟩ := List.exists_cons_of_ne_nil hne
    obtain rfl : c = '0' := by simpa using h0
    exact absurd hcs (hzero _)

theorem isNumberLiteralChars_iff {cs : List Char} :
    isNumberLiteralChars cs = true ↔ ∃ n : NumberSpelling, n.WellFormed ∧ n.chars = cs := by
  rw [isNumberLiteralChars_eq, beq_iff_eq]
  constructor
  · intro h
    rw [Option.bind_eq_some_iff] at h
    obtain ⟨exponent, h, he⟩ := h
    obtain ⟨rest, hw, hf⟩ := Option.bind_eq_some_iff.mp h
    obtain ⟨whole, hcs, hwd, hwne, hlead⟩ := dropWhole_some hw
    obtain ⟨fraction, hrest, hfd⟩ := dropFraction_some hf
    have hminus : cs = (if (stripMinus cs).1 then ['-'] else []) ++ (stripMinus cs).2 := by
      unfold stripMinus
      split <;> rfl
    rcases dropExponent_some he with rfl | ⟨e, sign, digits, rfl, hE, hsign, hd, hne⟩
    · refine ⟨⟨(stripMinus cs).1, whole, fraction, none⟩,
        ⟨hwd, hwne, hlead, hfd, by simp⟩, ?_⟩
      rw [NumberSpelling.chars, NumberSpelling.unsignedChars, NumberSpelling.fractionChars,
        NumberSpelling.exponentChars]
      dsimp only
      rw [← hrest, ← hcs]
      exact hminus.symm
    · refine ⟨⟨(stripMinus cs).1, whole, fraction, some (e, sign, digits)⟩,
        ⟨hwd, hwne, hlead, hfd, ?_⟩, ?_⟩
      · rintro e' sign' digits' heq
        cases heq
        exact ⟨hE, hsign, hd, hne⟩
      · rw [NumberSpelling.chars, NumberSpelling.unsignedChars, NumberSpelling.fractionChars,
          NumberSpelling.exponentChars]
        dsimp only
        rw [← hrest, ← hcs]
        exact hminus.symm
  · rintro ⟨n, h, rfl⟩
    rw [stripMinus_spelled n h, dropWhole_spelled n h, Option.bind_some, dropFraction_spelled n h,
      Option.bind_some, dropExponent_spelled n h]

theorem isNumberLiteral_iff {literal : String} :
    isNumberLiteral literal = true ↔
      ∃ n : NumberSpelling, n.WellFormed ∧ n.chars = literal.toList :=
  isNumberLiteralChars_iff

/-- Every literal denotes a number. -/
theorem exists_denotes {literal : String} (h : isNumberLiteral literal = true) :
    ∃ q, Denotes literal q := by
  obtain ⟨n, hn, hc⟩ := isNumberLiteral_iff.mp h
  exact ⟨n.number, n, hn, hc, rfl⟩

/-! ## The normal form -/

theorem splitExponent_spelled (n : NumberSpelling) (h : n.WellFormed) :
    ∃ exponent, splitExponent n.unsignedChars = (n.whole ++ n.fractionChars, exponent) ∧
      parseBigInt exponent = some n.exponentValue ∧
      (if exponent.head? = some '-' then n.exponentValue ≤ 0 else 0 ≤ n.exponentValue) := by
  have hplain : ∀ c ∈ n.whole ++ n.fractionChars, decide (c ≠ 'e' ∧ c ≠ 'E') = true := by
    intro c hc
    have hdigit {c : Char} (hc : c.isDigit = true) : decide (c ≠ 'e' ∧ c ≠ 'E') = true := by
      refine decide_eq_true ⟨?_, ?_⟩ <;> rintro rfl <;> cases hc
    rcases List.mem_append.mp hc with hc | hc
    · exact hdigit (h.whole c hc)
    · unfold NumberSpelling.fractionChars at hc
      split at hc
      · cases hc
      · rcases List.mem_cons.mp hc with rfl | hc
        · rfl
        · exact hdigit (h.fraction c hc)
  have hdigits {ds : List Char} (hd : IsDigits ds) (hne : ds ≠ []) :
      parseDigits ds = some (value ds) := if_pos ⟨hne, List.all_eq_true.mpr hd⟩
  unfold splitExponent NumberSpelling.unsignedChars NumberSpelling.exponentChars
    NumberSpelling.exponentValue
  rw [← List.append_assoc]
  cases he : n.exponent with
  | none =>
    refine ⟨['0'], ?_, by decide, by decide⟩
    simp only [List.append_nil, List.takeWhile_eq_self_iff.mpr hplain, List.drop_length]
  | some parts =>
    obtain ⟨e, sign, digits⟩ := parts
    obtain ⟨hE, hsign, hd, hne⟩ := h.exponent e sign digits he
    have hstop : decide (e ≠ 'e' ∧ e ≠ 'E') = false := by
      rcases hE with rfl | rfl <;> rfl
    have htake : ((n.whole ++ n.fractionChars) ++ e :: (sign ++ digits)).takeWhile
        (fun c => decide (c ≠ 'e' ∧ c ≠ 'E')) = n.whole ++ n.fractionChars := by
      rw [List.takeWhile_append_of_pos hplain,
        List.takeWhile_cons_of_neg (by simpa using hstop), List.append_nil]
    refine ⟨sign ++ digits, ?_, ?_, ?_⟩
    · simp only [htake, List.drop_left]
    · rcases hsign with rfl | rfl | rfl
      · obtain ⟨d, ds, rfl⟩ := List.exists_cons_of_ne_nil hne
        have hdig := (isDigits_cons.mp hd).1
        simp only [List.nil_append]
        unfold parseBigInt
        split
        · rename_i heq
          obtain rfl := (List.cons.inj heq).1
          cases hdig
        · rename_i heq
          obtain rfl := (List.cons.inj heq).1
          cases hdig
        · simp [hdigits hd hne]
      · simp [parseBigInt, hdigits hd hne]
      · simp [parseBigInt, hdigits hd hne]
    · rcases hsign with rfl | rfl | rfl
      · obtain ⟨d, ds, rfl⟩ := List.exists_cons_of_ne_nil hne
        have hd' : d ≠ '-' := by
          rintro rfl
          cases (isDigits_cons.mp hd).1
        simp [hd']
      · simp
      · simp

theorem splitFraction_spelled (n : NumberSpelling) (h : n.WellFormed) :
    splitFraction (n.whole ++ n.fractionChars) = (n.whole, n.fraction) := by
  have hplain : ∀ c ∈ n.whole, decide (c ≠ '.') = true := by
    intro c hc
    refine decide_eq_true ?_
    rintro rfl
    cases h.whole '.' hc
  unfold splitFraction NumberSpelling.fractionChars
  split
  · rename_i hnil
    simp only [List.append_nil, List.takeWhile_eq_self_iff.mpr hplain, List.drop_length, hnil]
  · have htake : (n.whole ++ '.' :: n.fraction).takeWhile (fun c => decide (c ≠ '.')) =
        n.whole := by
      rw [List.takeWhile_append_of_pos hplain, List.takeWhile_cons_of_neg (by simp),
        List.append_nil]
    simp only [htake, List.drop_left]

/-- The number a normal form stands for. -/
def NumberNormalForm.number (normal : NumberNormalForm) : ℚ :=
  scaled normal.negative (value normal.significantDigits) normal.scale

/-- Digits that neither begin nor end with zero; zero has one form. -/
def NumberNormalForm.Canonical (normal : NumberNormalForm) : Prop :=
  normal = ⟨false, ['0'], 0⟩ ∨
    IsDigits normal.significantDigits ∧ normal.significantDigits.head? ≠ some '0' ∧
      value normal.significantDigits % 10 ≠ 0

/-- Sign and digits trimmed on both sides. -/
theorem trimmed_canonical {negative : Bool} {digits : List Char} {scale : Int}
    (hd : IsDigits digits) (hne : ¬ ∀ c ∈ digits, c = '0') :
    let rest := digits.dropWhile (· == '0')
    let normal : NumberNormalForm :=
      ⟨negative, rest.take (rest.length - trailingZeros rest), scale + trailingZeros rest⟩
    normal.Canonical ∧ normal.number = scaled negative (value digits) scale := by
  intro rest normal
  have hrest : IsDigits rest := hd.sublist (List.dropWhile_sublist _)
  have hvalue : value rest ≠ 0 := by
    rw [value_dropWhile]
    exact fun h0 => hne ((value_eq_zero hd).mp h0)
  have hcore := value_take_trailingZeros rest
  have htake : rest.take (rest.length - trailingZeros rest) ≠ [] := by
    intro hnil
    rw [hnil] at hcore
    exact hvalue (by simpa using hcore)
  refine ⟨.inr ⟨hrest.sublist (List.take_sublist _ _), ?_, ?_⟩, ?_⟩
  · intro hhead
    have hmem : rest.head? = some '0' := by
      rw [List.head?_take] at hhead
      split at hhead
      · cases hhead
      · exact hhead
    have hnot := List.head?_dropWhile_not (· == '0') digits
    rw [show digits.dropWhile (· == '0') = rest from rfl, hmem] at hnot
    simp at hnot
  · obtain ⟨front, c, hlast, hc⟩ := getLast_take_trailingZeros htake
    have hcd : IsDigits (front ++ [c]) := hlast ▸ hrest.sublist (List.take_sublist _ _)
    have hdigit := (isDigits_append.mp hcd).2 c (List.mem_singleton_self c)
    show value (rest.take (rest.length - trailingZeros rest)) % 10 ≠ 0
    rw [hlast, value_mod_ten hdigit]
    exact fun h0 => hc ((digit_eq_zero hdigit).mp h0)
  · rw [NumberNormalForm.number, ← scaled_add, ← hcore, value_dropWhile]

/-- The normal form by the parts of the literal. -/
def NumberSpelling.normalForm (n : NumberSpelling) : NumberNormalForm :=
  let digits := n.whole ++ n.fraction
  if digits.all (· == '0') then ⟨false, ['0'], 0⟩
  else
    let digits := digits.dropWhile (· == '0')
    ⟨n.negative, digits.take (digits.length - trailingZeros digits),
      n.exponentValue - n.fraction.length + trailingZeros digits⟩

theorem numberNormalForm_spelled {n : NumberSpelling} (h : n.WellFormed) {literal : String}
    (hc : n.chars = literal.toList) : numberNormalForm literal = some n.normalForm := by
  obtain ⟨exponent, hsplit, hexponent, -⟩ := splitExponent_spelled n h
  unfold numberNormalForm
  simp only [← hc, stripMinus_spelled n h, hsplit, hexponent, splitFraction_spelled n h,
    Option.map_some]
  rfl

theorem numberNormalForm_eq {literal : String} {q : ℚ} (h : Denotes literal q) :
    ∃ normal, numberNormalForm literal = some normal ∧ normal.Canonical ∧ normal.number = q := by
  obtain ⟨n, hn, hc, rfl⟩ := h
  have hd : IsDigits (n.whole ++ n.fraction) := isDigits_append.mpr ⟨hn.whole, hn.fraction⟩
  have hall_iff : (n.whole ++ n.fraction).all (· == '0') = true ↔
      ∀ c ∈ n.whole ++ n.fraction, c = '0' := by
    simp only [List.all_eq_true, beq_iff_eq]
  refine ⟨n.normalForm, numberNormalForm_spelled hn hc, ?_⟩
  unfold NumberSpelling.normalForm
  dsimp only
  split
  · rename_i hall
    refine ⟨.inl rfl, ?_⟩
    have hzero : value (n.whole ++ n.fraction) = 0 := (value_eq_zero hd).mpr (hall_iff.mp hall)
    rw [n.number_eq, hzero]
    simp [NumberNormalForm.number, scaled, value_cons, digit]
  · rename_i hall
    rw [n.number_eq]
    exact trimmed_canonical hd fun hzeros => hall (hall_iff.mpr hzeros)

theorem Denotes.unique {literal : String} {p q : ℚ} (hp : Denotes literal p)
    (hq : Denotes literal q) : p = q := by
  obtain ⟨normal, hn, -, rfl⟩ := numberNormalForm_eq hp
  obtain ⟨normal', hn', -, rfl⟩ := numberNormalForm_eq hq
  rw [Option.some.inj (hn.symm.trans hn')]

namespace NumberNormalForm

variable {a b : NumberNormalForm}

theorem Canonical.isDigits (h : a.Canonical) : IsDigits a.significantDigits := by
  rcases h with rfl | ⟨hd, -⟩
  · simp [IsDigits]
  · exact hd

theorem Canonical.number_ne_zero (h : value a.significantDigits % 10 ≠ 0) : a.number ≠ 0 :=
  scaled_ne_zero (by omega)

theorem zero_number : NumberNormalForm.number ⟨false, ['0'], 0⟩ = 0 := by
  simp [number, scaled, value_cons, digit]

/-- A number has one canonical form. -/
theorem Canonical.number_inj (ha : a.Canonical) (hb : b.Canonical) (h : a.number = b.number) :
    a = b := by
  rcases ha with rfl | ⟨hda, hha, hma⟩
  · rcases hb with rfl | ⟨-, -, hmb⟩
    · rfl
    · exact absurd (h.symm.trans zero_number) (Canonical.number_ne_zero hmb)
  · rcases hb with rfl | ⟨hdb, hhb, hmb⟩
    · exact absurd (h.trans zero_number) (Canonical.number_ne_zero hma)
    · obtain ⟨hneg, hvalue, hscale⟩ := scaled_inj hma hmb h
      have hdigits := value_inj hda hdb hha hhb hvalue
      cases a
      cases b
      simp_all

theorem Canonical.isInt_iff (h : a.Canonical) : (∃ z : Int, a.number = z) ↔ 0 ≤ a.scale := by
  rcases h with rfl | ⟨-, -, hm⟩
  · exact ⟨fun _ => le_refl _, fun _ => ⟨0, by rw [zero_number]; rfl⟩⟩
  · exact scaled_isInt hm

end NumberNormalForm

theorem numbersEqual_iff {l r : String} {p q : ℚ} (hl : Denotes l p) (hr : Denotes r q) :
    numbersEqual (.number l) (.number r) = true ↔ p = q := by
  obtain ⟨normal, hnl, hcl, rfl⟩ := numberNormalForm_eq hl
  obtain ⟨normal', hnr, hcr, rfl⟩ := numberNormalForm_eq hr
  rw [numbersEqual_number]
  constructor
  · rintro (rfl | ⟨n, hn, hn'⟩)
    · rw [Option.some.inj (hnl.symm.trans hnr)]
    · rw [Option.some.inj (hnl.symm.trans hn), Option.some.inj (hnr.symm.trans hn')]
  · intro h
    exact .inr ⟨normal, hnl, hcl.number_inj hcr h ▸ hnr⟩

theorem numberIsInteger_iff {literal : String} {q : ℚ} (h : Denotes literal q) :
    numberIsInteger literal = true ↔ ∃ z : Int, q = z := by
  obtain ⟨normal, hn, hc, rfl⟩ := numberNormalForm_eq h
  rw [numberIsInteger, hn, hc.isInt_iff]
  simp

/-! ## Integers -/

/-- The decimal spelling of an integer. -/
def canonicalInteger (z : Int) : List Char :=
  (if z < 0 then ['-'] else []) ++ Nat.toDigits 10 z.natAbs

theorem toDigits_head {n : Nat} (hn : n ≠ 0) : (Nat.toDigits 10 n).head? ≠ some '0' := by
  have hd := isDigits_toDigits n
  have hrest := hd.sublist (List.dropWhile_sublist (l := Nat.toDigits 10 n) (· == '0'))
  have hvalue := value_dropWhile (Nat.toDigits 10 n)
  rw [value_toDigits] at hvalue
  have hnot := List.head?_dropWhile_not (· == '0') (Nat.toDigits 10 n)
  have hhead : ((Nat.toDigits 10 n).dropWhile (· == '0')).head? ≠ some '0' := by
    intro h0
    rw [h0] at hnot
    simp at hnot
  have hne : (Nat.toDigits 10 n).dropWhile (· == '0') ≠ [] := by
    intro hnil
    rw [hnil] at hvalue
    exact hn hvalue.symm
  have hall := toDigits_value hrest hne hhead
  rw [hvalue] at hall
  rw [hall]
  exact hhead

/-- The spelling of an integer as a literal. -/
def integerSpelling (z : Int) : NumberSpelling := ⟨decide (z < 0), Nat.toDigits 10 z.natAbs, [], none⟩

theorem integerSpelling_wf (z : Int) : (integerSpelling z).WellFormed where
  whole := isDigits_toDigits z.natAbs
  whole_ne := List.ne_nil_of_length_pos Nat.length_toDigits_pos
  leading := by
    intro h0
    by_cases hz : z.natAbs = 0
    · show Nat.toDigits 10 z.natAbs = ['0']
      rw [hz]
      rfl
    · exact absurd h0 (toDigits_head hz)
  fraction := .nil
  exponent := by
    intro e sign digits h
    cases h

theorem integerSpelling_chars (z : Int) : (integerSpelling z).chars = canonicalInteger z := by
  simp [integerSpelling, NumberSpelling.chars, NumberSpelling.unsignedChars,
    NumberSpelling.fractionChars, NumberSpelling.exponentChars, canonicalInteger]

theorem denotes_canonicalInteger (z : Int) : Denotes (String.ofList (canonicalInteger z)) z := by
  refine ⟨integerSpelling z, integerSpelling_wf z, ?_, ?_⟩
  · rw [integerSpelling_chars, String.toList_ofList]
  · have hdigits : (integerSpelling z).number = scaled (decide (z < 0)) z.natAbs (0 : Nat) := by
      rw [NumberSpelling.number_eq]
      show scaled (decide (z < 0)) (value (Nat.toDigits 10 z.natAbs ++ [])) (0 - 0) = _
      rw [List.append_nil, value_toDigits]
      rfl
    rw [hdigits, scaled_nonneg, Int.cast_inj, pow_zero, Nat.mul_one]
    by_cases hz : z < 0
    · simp only [hz, decide_true, if_true]
      omega
    · simp only [hz, decide_false, Bool.false_eq_true, if_false]
      omega

theorem canonicalInteger_inj {y z : Int} (h : canonicalInteger y = canonicalInteger z) : y = z := by
  have hy := denotes_canonicalInteger y
  rw [h] at hy
  exact Int.cast_inj.mp (hy.unique (denotes_canonicalInteger z))

/-! ## Values -/

/-- The same structure: members by key, items by position, numbers by their value. -/
inductive SameJson : Value → Value → Prop where
  | null : SameJson .null .null
  | bool (b : Bool) : SameJson (.bool b) (.bool b)
  | number {l r : String} {q : ℚ} (hl : Denotes l q) (hr : Denotes r q) :
      SameJson (.number l) (.number r)
  | string (s : String) : SameJson (.string s) (.string s)
  | array {left right : List Value} (length : left.length = right.length)
      (items : ∀ (i : Nat) a b, left[i]? = some a → right[i]? = some b → SameJson a b) :
      SameJson (.array left) (.array right)
  | object {left right : List (String × Value)}
      (keys : ∀ key, (SortedMap.get key left).isSome = (SortedMap.get key right).isSome)
      (members : ∀ key a b, SortedMap.get key left = some a → SortedMap.get key right = some b →
        SameJson a b) : SameJson (.object left) (.object right)

theorem sameJson_of_jsonValuesEqual {a b : Value} (ha : a.WF) (hb : b.WF)
    (h : jsonValuesEqual a b = true) : SameJson a b := by
  induction a using Value.induct generalizing b with
  | null =>
    cases b with
    | null => exact .null
    | _ => simp [jsonValuesEqual_iff] at h
  | bool l =>
    cases b with
    | bool r =>
      obtain rfl : l = r := by simpa [jsonValuesEqual_iff] using h
      exact .bool l
    | _ => simp [jsonValuesEqual_iff] at h
  | number l =>
    obtain ⟨r, rfl⟩ := jsonValuesEqual_number_left h
    obtain ⟨p, hp⟩ := exists_denotes ha
    obtain ⟨q, hq⟩ := exists_denotes hb
    obtain rfl := (numbersEqual_iff hp hq).mp (jsonValuesEqual_number.mp h)
    exact .number hp hq
  | string l =>
    cases b with
    | string r =>
      obtain rfl : l = r := by simpa [jsonValuesEqual_iff] using h
      exact .string l
    | _ => simp [jsonValuesEqual_iff] at h
  | array l ih =>
    obtain ⟨r, rfl⟩ := jsonValuesEqual_array_left h
    have ha := Value.wf_array.mp ha
    have hb := Value.wf_array.mp hb
    have hitems := jsonValuesEqual_array.mp h
    refine .array hitems.length_eq fun i u w hu hw => ?_
    have huw := ListEdit.forall₂_getElem? hitems i
    rw [hu, hw] at huw
    cases huw with
    | some huw =>
      exact ih u (List.mem_of_getElem? hu) (ha u (List.mem_of_getElem? hu))
        (hb w (List.mem_of_getElem? hw)) huw
  | object l ih =>
    obtain ⟨r, rfl⟩ := jsonValuesEqual_object_left h
    obtain ⟨hl, ha⟩ := Value.wf_object.mp ha
    obtain ⟨hr, hb⟩ := Value.wf_object.mp hb
    have hmembers := (jsonValuesEqual_object hl hr).mp h
    have hget := SortedMap.get_of_forall₂ (P := fun a b => jsonValuesEqual a b = true) hmembers
    refine .object (fun key => ?_) fun key u w hu hw => ?_
    · have hkey := hget key
      cases hu : SortedMap.get key l <;> cases hw : SortedMap.get key r <;>
        rw [hu, hw] at hkey <;> first | rfl | cases hkey
    · have hkey := hget key
      rw [hu, hw] at hkey
      cases hkey with
      | some huw =>
        exact ih _ (SortedMap.mem_of_get hu) (ha _ (SortedMap.mem_of_get hu))
          (hb _ (SortedMap.mem_of_get hw)) huw

theorem jsonValuesEqual_of_sameJson {a b : Value} (ha : a.WF) (hb : b.WF) (h : SameJson a b) :
    jsonValuesEqual a b = true := by
  induction h with
  | null => exact jsonValuesEqual_refl _
  | bool b => exact jsonValuesEqual_refl _
  | number hl hr => exact jsonValuesEqual_number.mpr ((numbersEqual_iff hl hr).mpr rfl)
  | string s => exact jsonValuesEqual_refl _
  | @array left right hlen hitems ih =>
    have ha := Value.wf_array.mp ha
    have hb := Value.wf_array.mp hb
    refine jsonValuesEqual_array.mpr (List.forall₂_iff_get.mpr ⟨hlen, fun i hi hi' => ?_⟩)
    exact ih i _ _ (List.getElem?_eq_getElem hi) (List.getElem?_eq_getElem hi')
      (ha _ (List.getElem_mem hi)) (hb _ (List.getElem_mem hi'))
  | @object left right hkeys hmembers ih =>
    obtain ⟨hl, ha⟩ := Value.wf_object.mp ha
    obtain ⟨hr, hb⟩ := Value.wf_object.mp hb
    have hlen : left.length = right.length :=
      Nat.le_antisymm (SortedMap.length_le_of_keys hl fun key h => hkeys key ▸ h)
        (SortedMap.length_le_of_keys hr fun key h => (hkeys key).symm ▸ h)
    refine jsonValuesEqual_iff.mpr (.inr ⟨hlen, jsonMembersEqual_iff.mpr fun e he => ?_⟩)
    have hget := SortedMap.get_of_mem hl he
    have hsome := hkeys e.1
    rw [hget] at hsome
    obtain ⟨w, hw⟩ := Option.isSome_iff_exists.mp hsome.symm
    exact ⟨w, hw, ih e.1 _ _ hget hw (ha e he) (hb _ (SortedMap.mem_of_get hw))⟩

theorem jsonValuesEqual_iff_same {a b : Value} (ha : a.WF) (hb : b.WF) :
    jsonValuesEqual a b = true ↔ SameJson a b :=
  ⟨sameJson_of_jsonValuesEqual ha hb, jsonValuesEqual_of_sameJson ha hb⟩

/-- Every literal denotes one number, literals are equal as their numbers are, and values as
their structure with these numbers is. -/
theorem json_equality_exact :
    (∀ literal, isNumberLiteral literal = true ↔ ∃! q, Denotes literal q) ∧
    (∀ l r p q, Denotes l p → Denotes r q →
      (numbersEqual (.number l) (.number r) = true ↔ p = q)) ∧
    (∀ literal q, Denotes literal q → (numberIsInteger literal = true ↔ ∃ z : Int, q = z)) ∧
    Equivalence (fun a b : { v : Value // v.WF } => jsonValuesEqual a.1 b.1 = true) ∧
    ∀ a b : Value, a.WF → b.WF → (jsonValuesEqual a b = true ↔ SameJson a b) := by
  refine ⟨fun literal => ⟨fun h => ?_, ?_⟩, fun l r p q => numbersEqual_iff,
    fun literal q => numberIsInteger_iff, ⟨?_, ?_, ?_⟩, fun a b => jsonValuesEqual_iff_same⟩
  · obtain ⟨q, hq⟩ := exists_denotes h
    exact ⟨q, hq, fun p hp => hp.unique hq⟩
  · rintro ⟨q, ⟨n, hn, hc, -⟩, -⟩
    exact isNumberLiteral_iff.mpr ⟨n, hn, hc⟩
  · intro a
    exact jsonValuesEqual_refl a.1
  · intro a b h
    exact jsonValuesEqual_symm a.2 b.2 h
  · intro a b c hab hbc
    exact jsonValuesEqual_trans a.2 b.2 c.2 hab hbc

end Schemaform
