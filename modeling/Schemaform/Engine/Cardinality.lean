import Schemaform.Engine.Array
import Schemaform.Json.Number

/-!
# Engine.Cardinality

The bounds on the length of an array, as the form reads them and as the validator does.

* `arrayLengthBounds`: the bounds a compiled array keeps, saturated at the machine word.
* `ExactNonnegativeInteger`, `CardinalityKeyword`: the exact comparison of the validator.
* `parse_iff`, `compareUsize_eq`: a bound is read and compared by the number it denotes.
* `nonnegativeIntegerAsUsize_eq`: the saturated bound is the exact one, cut off at the word.
* `array_gates_exact`.
-/

namespace Schemaform.Engine

open Decimal

/-! ## The form -/

/-- `str::parse::<usize>` -/
def parseUsize (usizeMax : Nat) (input : List Char) : Option Nat :=
  let digits := match input with
    | '+' :: digits => digits
    | digits => digits
  (parseDigits digits).filter fun n => decide (n ≤ usizeMax)

def nonnegativeIntegerAsUsize (usizeMax : Nat) (value : Value) : Option Nat := do
  let input ← value.asNumber
  let normal ← numberNormalForm input
  if normal.negative ∨ normal.scale < 0 then none
  else if normal.significantDigits = ['0'] then some 0
  else
    let maximumDigits := (Nat.toDigits 10 usizeMax).length
    if normal.significantDigits.length > maximumDigits then some usizeMax
    else
      let availableDigits := maximumDigits - normal.significantDigits.length
      if normal.scale > availableDigits then some usizeMax
      else do
        let trailingZeros ← parseUsize usizeMax (canonicalInteger normal.scale)
        let digits := normal.significantDigits ++ List.replicate trailingZeros '0'
        some ((parseUsize usizeMax digits).getD usizeMax)

def arrayLengthBounds (usizeMax : Nat) (applicable : List Value) : Option Nat × Option Nat :=
  let minItems := (applicable.filterMap fun schema =>
    (schema.get "minItems").bind (nonnegativeIntegerAsUsize usizeMax)).max?
  let maxItems := (applicable.filterMap fun schema =>
    (schema.get "maxItems").bind (nonnegativeIntegerAsUsize usizeMax)).min?
  (minItems, maxItems)

/-! ## The validator -/

structure ExactNonnegativeInteger where
  significantDigits : List Char
  scale : Int
deriving DecidableEq, Repr

namespace ExactNonnegativeInteger

def parse (value : Value) : Option ExactNonnegativeInteger := do
  let input ← value.asNumber
  let (negative, unsigned) := stripMinus input.toList
  let (significand, exponent) := splitExponent unsigned
  let exponent ← parseBigInt exponent
  let (whole, fraction) := splitFraction significand
  let digits := whole ++ fraction
  if digits.all (· == '0') then some ⟨['0'], 0⟩
  else if negative then none
  else
    let digits := digits.dropWhile (· == '0')
    let trailingZeros := (digits.reverse.takeWhile (· == '0')).length
    let significantDigits := digits.take (digits.length - trailingZeros)
    let scale := exponent - fraction.length + trailingZeros
    if 0 ≤ scale then some ⟨significantDigits, scale⟩ else none

/-- Nothing when the conversion of the scale that the source expects to succeed fails. -/
def compareUsize (usizeMax : Nat) (bound : ExactNonnegativeInteger) (value : Nat) :
    Option Ordering :=
  if bound.significantDigits = ['0'] then some (compare 0 value)
  else
    let value := Nat.toDigits 10 value
    let digitCount := bound.significantDigits.length + bound.scale
    match compare digitCount (value.length : Int) with
    | .eq => do
      let scale ← parseUsize usizeMax (canonicalInteger bound.scale)
      some (compare (bound.significantDigits ++ List.replicate scale '0') value)
    | ordering => some ordering

end ExactNonnegativeInteger

inductive CardinalityComparison where
  | minimum
  | maximum
deriving DecidableEq, Repr

structure CardinalityKeyword where
  bound : ExactNonnegativeInteger
  comparison : CardinalityComparison
deriving DecidableEq, Repr

def CardinalityKeyword.isValid (usizeMax : Nat) (keyword : CardinalityKeyword) :
    Value → Option Bool
  | .array values =>
    match keyword.comparison with
    | .minimum => (keyword.bound.compareUsize usizeMax values.length).map (· != .gt)
    | .maximum => (keyword.bound.compareUsize usizeMax values.length).map (· != .lt)
  | _ => some true

def cardinalityFactory (value : Value) (comparison : CardinalityComparison) :
    Option CardinalityKeyword :=
  (ExactNonnegativeInteger.parse value).map fun bound => ⟨bound, comparison⟩

example : (ExactNonnegativeInteger.parse (.number "2e0")).bind (·.compareUsize 255 3) =
    some .lt := by decide
example : nonnegativeIntegerAsUsize 255 (.number "1e4096") = some 255 := by decide

/-! ## Numerals -/

variable {usizeMax : Nat}

theorem length_toDigits_mono {m n : Nat} (h : m ≤ n) :
    (Nat.toDigits 10 m).length ≤ (Nat.toDigits 10 n).length := by
  have hpos : 0 < (Nat.toDigits 10 n).length := Nat.length_toDigits_pos
  have hlt := (Nat.length_toDigits_le_iff (b := 10) (n := n) (by omega) hpos).mp le_rfl
  exact (Nat.length_toDigits_le_iff (by omega) hpos).mpr (by omega)

theorem length_toDigits_le (n : Nat) : (Nat.toDigits 10 n).length ≤ n + 1 := by
  have hlt : n < 10 ^ n := Nat.lt_pow_self (by omega)
  have hle : 10 ^ n ≤ 10 ^ (n + 1) := Nat.pow_le_pow_right (by omega) (by omega)
  exact (Nat.length_toDigits_le_iff (by omega) (by omega)).mpr (by omega)

theorem parseUsize_digits {ds : List Char} (hd : IsDigits ds) (hne : ds ≠ []) :
    parseUsize usizeMax ds = if value ds ≤ usizeMax then some (value ds) else none := by
  have hparse : parseDigits ds = some (value ds) := if_pos ⟨hne, List.all_eq_true.mpr hd⟩
  obtain ⟨c, cs, rfl⟩ := List.exists_cons_of_ne_nil hne
  have hplus : c ≠ '+' := by
    rintro rfl
    cases (isDigits_cons.mp hd).1
  unfold parseUsize
  split
  · rename_i heq
    exact absurd (List.cons.inj heq).1 hplus
  · dsimp only
    rw [hparse, Option.filter_some]
    simp only [decide_eq_true_eq]

theorem parseUsize_scale {scale : Int} (h0 : 0 ≤ scale) (h : scale ≤ usizeMax) :
    parseUsize usizeMax (canonicalInteger scale) = some scale.toNat := by
  have hne : Nat.toDigits 10 scale.natAbs ≠ [] := List.ne_nil_of_length_pos Nat.length_toDigits_pos
  rw [canonicalInteger, if_neg (by omega), List.nil_append,
    parseUsize_digits (isDigits_toDigits _) hne, value_toDigits, if_pos (by omega)]
  rw [show scale.natAbs = scale.toNat by omega]

/-! ## Exact bounds -/

namespace ExactNonnegativeInteger

def value (bound : ExactNonnegativeInteger) : Nat :=
  Decimal.value bound.significantDigits * 10 ^ bound.scale.toNat

/-- Zero, or digits that do not begin with zero. -/
structure Canonical (bound : ExactNonnegativeInteger) : Prop where
  isDigits : IsDigits bound.significantDigits
  ne_nil : bound.significantDigits ≠ []
  nonneg : 0 ≤ bound.scale
  head : bound = ⟨['0'], 0⟩ ∨ bound.significantDigits.head? ≠ some '0'

variable {bound : ExactNonnegativeInteger}

/-- The digits of a bound, written out. -/
def digits (bound : ExactNonnegativeInteger) : List Char :=
  bound.significantDigits ++ List.replicate bound.scale.toNat '0'

theorem Canonical.isDigits_digits (h : bound.Canonical) : IsDigits bound.digits :=
  isDigits_append.mpr ⟨h.isDigits, fun _ hc => (List.eq_of_mem_replicate hc) ▸ rfl⟩

theorem Canonical.digits_ne_nil (h : bound.Canonical) : bound.digits ≠ [] := by
  simp [digits, h.ne_nil]

theorem value_digits (bound : ExactNonnegativeInteger) :
    Decimal.value bound.digits = bound.value := by
  rw [digits, value_append, value_replicate_zero, List.length_replicate, value, Nat.add_zero,
    Nat.mul_comm]

theorem Canonical.toDigits (h : bound.Canonical) (hne : bound.significantDigits ≠ ['0']) :
    Nat.toDigits 10 bound.value = bound.digits := by
  rw [← value_digits]
  refine toDigits_value h.isDigits_digits h.digits_ne_nil ?_
  rw [digits, List.head?_append_of_ne_nil _ h.ne_nil]
  rcases h.head with rfl | hhead
  · exact absurd rfl hne
  · exact hhead

theorem digits_length (h : bound.Canonical) :
    (bound.digits.length : Int) = bound.significantDigits.length + bound.scale := by
  have := h.nonneg
  rw [digits, List.length_append, List.length_replicate]
  omega

theorem value_zero (hzero : bound.significantDigits = ['0']) : bound.value = 0 := by
  rw [value, hzero, value_cons]
  simp [digit]

/-- The comparison by length and then by digits is the comparison of the numbers. -/
theorem compareUsize_eq (h : bound.Canonical) {n : Nat} (hn : n ≤ usizeMax) :
    bound.compareUsize usizeMax n = some (compare bound.value n) := by
  unfold compareUsize
  by_cases hzero : bound.significantDigits = ['0']
  · rw [if_pos hzero, value_zero hzero]
  · rw [if_neg hzero]
    have hdigits := h.toDigits hzero
    have hlen := digits_length h
    dsimp only
    rw [← hlen, ← hdigits]
    -- a longer numeral writes the greater number
    rcases lt_trichotomy (Nat.toDigits 10 bound.value).length (Nat.toDigits 10 n).length with
      hlt | heq | hgt
    · rw [compare_lt_iff_lt.mpr (by omega)]
      have hvalue : bound.value < n := by
        by_contra hle
        have := length_toDigits_mono (Nat.not_lt.mp hle)
        omega
      rw [compare_lt_iff_lt.mpr hvalue]
    · have hscale : bound.scale ≤ usizeMax := by
        have hcount := length_toDigits_le n
        have hpos := List.length_pos_of_ne_nil h.ne_nil
        rw [hdigits] at heq
        omega
      rw [compare_eq_iff_eq.mpr (by omega), parseUsize_scale h.nonneg hscale]
      have hcompare := compare_value h.isDigits_digits (isDigits_toDigits n) (hdigits ▸ heq)
      rw [value_digits, value_toDigits] at hcompare
      exact congrArg some hcompare
    · rw [compare_gt_iff_gt.mpr (by omega)]
      have hvalue : bound.value > n := by
        by_contra hle
        have := length_toDigits_mono (Nat.not_lt.mp hle)
        omega
      rw [compare_gt_iff_gt.mpr hvalue]

/-- The validator reads a bound off the normal form of its literal. -/
theorem parse_normalForm {literal : String} {q : ℚ} (h : Denotes literal q) :
    ∃ normal, numberNormalForm literal = some normal ∧ normal.Canonical ∧ normal.number = q ∧
      parse (.number literal) = if normal.negative ∨ normal.scale < 0 then none
        else some ⟨normal.significantDigits, normal.scale⟩ := by
  obtain ⟨normal, hnormal, hcanonical, hq⟩ := numberNormalForm_eq h
  obtain ⟨n, hn, hc, -⟩ := h
  obtain rfl := Option.some.inj ((numberNormalForm_spelled hn hc).symm.trans hnormal)
  refine ⟨n.normalForm, hnormal, hcanonical, hq, ?_⟩
  obtain ⟨exponent, hsplit, hexponent, -⟩ := splitExponent_spelled n hn
  simp only [parse, Value.asNumber, bind, Option.bind, ← hc, stripMinus_spelled n hn, hsplit,
    hexponent, splitFraction_spelled n hn]
  unfold NumberSpelling.normalForm
  dsimp only
  by_cases hzeros : (n.whole ++ n.fraction).all (· == '0') = true
  · rw [if_pos hzeros, if_pos hzeros]
    rfl
  · rw [if_neg hzeros, if_neg hzeros]
    dsimp only
    cases n.negative with
    | true => simp
    | false =>
      simp only [Bool.false_eq_true, false_or, if_false]
      split
      · rw [if_neg (by unfold trailingZeros; omega)]
        rfl
      · rw [if_pos (by unfold trailingZeros; omega)]

theorem canonical_of_normalForm {normal : NumberNormalForm} (h : normal.Canonical)
    (hscale : 0 ≤ normal.scale) : Canonical ⟨normal.significantDigits, normal.scale⟩ := by
  refine ⟨h.isDigits, ?_, hscale, ?_⟩
  · rcases h with rfl | ⟨-, -, hmod⟩
    · simp
    · intro hnil
      have hnil : normal.significantDigits = [] := hnil
      rw [hnil] at hmod
      exact hmod rfl
  · rcases h with rfl | ⟨-, hhead, -⟩
    · exact .inl rfl
    · exact .inr hhead

theorem number_of_normalForm {normal : NumberNormalForm} (hneg : normal.negative = false)
    (hscale : 0 ≤ normal.scale) :
    normal.number = (value ⟨normal.significantDigits, normal.scale⟩ : ℚ) := by
  obtain ⟨k, hk⟩ := Int.eq_ofNat_of_zero_le hscale
  rw [NumberNormalForm.number, hneg, hk, scaled_nonneg, value]
  simp

/-- The form cuts the exact bound off at the machine word. -/
theorem saturated {literal : String} {normal : NumberNormalForm}
    (hnormal : numberNormalForm literal = some normal)
    (hgood : ¬ (normal.negative = true ∨ normal.scale < 0))
    (h : Canonical ⟨normal.significantDigits, normal.scale⟩) :
    nonnegativeIntegerAsUsize usizeMax (.number literal) =
      some (min (value ⟨normal.significantDigits, normal.scale⟩) usizeMax) := by
  simp only [nonnegativeIntegerAsUsize, Value.asNumber, bind, Option.bind, hnormal]
  rw [if_neg hgood]
  have hscale : 0 ≤ normal.scale := h.nonneg
  have hlen := digits_length h
  have hvalue := value_digits ⟨normal.significantDigits, normal.scale⟩
  have hall := h.isDigits_digits
  have hne := h.digits_ne_nil
  have htoDigits := h.toDigits
  simp only [digits] at hlen hvalue hall hne htoDigits
  generalize hv : value ⟨normal.significantDigits, normal.scale⟩ = v at *
  by_cases hzero : normal.significantDigits = ['0']
  · have h0 : v = 0 := hv ▸ value_zero hzero
    rw [if_pos hzero, h0, Nat.zero_min]
  · rw [if_neg hzero]
    have htoDigits := htoDigits hzero
    have hlarge (hlong : (Nat.toDigits 10 usizeMax).length <
        (normal.significantDigits ++ List.replicate normal.scale.toNat '0').length) :
        min v usizeMax = usizeMax := by
      rw [← htoDigits] at hlong
      by_contra hle
      have := length_toDigits_mono (show v ≤ usizeMax by omega)
      omega
    by_cases hlong : normal.significantDigits.length > (Nat.toDigits 10 usizeMax).length
    · rw [if_pos hlong, hlarge (by omega)]
    · rw [if_neg hlong]
      by_cases hshift : normal.scale > ((Nat.toDigits 10 usizeMax).length -
          normal.significantDigits.length : Nat)
      · rw [if_pos hshift, hlarge (by omega)]
      · have hpos : 0 < normal.significantDigits.length := List.length_pos_of_ne_nil h.ne_nil
        have hcount := length_toDigits_le usizeMax
        rw [if_neg hshift, parseUsize_scale hscale (by omega)]
        dsimp only
        rw [parseUsize_digits hall hne, hvalue]
        split
        · rw [Option.getD_some, Nat.min_eq_left (by omega)]
        · rw [Option.getD_none, Nat.min_eq_right (by omega)]

/-- A literal is read as the bound it denotes, when it denotes a natural number. -/
theorem parse_eq {literal : String} {q : ℚ} (h : Denotes literal q) :
    (∃ bound, parse (.number literal) = some bound ∧ bound.Canonical ∧ q = bound.value ∧
      ∀ usizeMax, nonnegativeIntegerAsUsize usizeMax (.number literal) =
        some (min bound.value usizeMax)) ∨
    parse (.number literal) = none ∧ (¬ ∃ k : Nat, q = k) ∧
      ∀ usizeMax, nonnegativeIntegerAsUsize usizeMax (.number literal) = none := by
  obtain ⟨normal, hnormal, hcanonical, hq, hparse⟩ := parse_normalForm h
  by_cases hbad : normal.negative = true ∨ normal.scale < 0
  · rw [if_pos hbad] at hparse
    refine .inr ⟨hparse, ?_, fun usizeMax => ?_⟩
    · rintro ⟨k, hk⟩
      rcases hbad with hneg | hscale
      · rcases hcanonical with rfl | ⟨-, -, hmod⟩
        · cases hneg
        · have hlt : normal.number < 0 :=
            (scaled_neg (fun h0 => hmod (by rw [h0]))).mpr hneg
          rw [hq, hk] at hlt
          exact absurd hlt (not_lt.mpr (Nat.cast_nonneg k))
      · have := hcanonical.isInt_iff.mp ⟨k, by rw [hq, hk]; rfl⟩
        omega
    · simp only [nonnegativeIntegerAsUsize, Value.asNumber, bind, Option.bind, hnormal, hbad,
        if_true]
  · rw [if_neg hbad] at hparse
    have hneg : normal.negative = false := by simpa using fun h => hbad (.inl h)
    have hscale : 0 ≤ normal.scale := by
      by_contra hlt
      exact hbad (.inr (by omega))
    refine .inl ⟨_, hparse, canonical_of_normalForm hcanonical hscale, ?_, fun usizeMax => ?_⟩
    · rw [← hq, number_of_normalForm hneg hscale]
    · exact saturated hnormal hbad (canonical_of_normalForm hcanonical hscale)

end ExactNonnegativeInteger

/-! ## Gates -/

open ExactNonnegativeInteger (parse_eq compareUsize_eq)

/-- The bound of a keyword as the form has it and as the validator has it. -/
theorem keyword_bound (usizeMax : Nat) {value : Value} (h : value.WF) :
    (∃ bound, ExactNonnegativeInteger.parse value = some bound ∧ bound.Canonical ∧
      nonnegativeIntegerAsUsize usizeMax value = some (min bound.value usizeMax)) ∨
    ExactNonnegativeInteger.parse value = none ∧ nonnegativeIntegerAsUsize usizeMax value = none := by
  cases value with
  | number literal =>
    obtain ⟨q, hq⟩ := exists_denotes h
    rcases parse_eq hq with ⟨bound, hparse, hbound, -, hword⟩ | ⟨hparse, -, hword⟩
    · exact .inl ⟨bound, hparse, hbound, hword usizeMax⟩
    · exact .inr ⟨hparse, hword usizeMax⟩
  | _ => exact .inr ⟨rfl, rfl⟩

/-- What a comparison asks of a length. -/
def CardinalityComparison.Holds (bound length : Nat) : CardinalityComparison → Prop
  | .minimum => bound ≤ length
  | .maximum => length ≤ bound

theorem isValid_iff {bound : ExactNonnegativeInteger} (h : bound.Canonical)
    (comparison : CardinalityComparison) {values : List Value} (hlen : values.length ≤ usizeMax) :
    CardinalityKeyword.isValid usizeMax ⟨bound, comparison⟩ (.array values) = some true ↔
      comparison.Holds bound.value values.length := by
  cases comparison with
  | minimum =>
    simp only [CardinalityKeyword.isValid, compareUsize_eq h hlen, Option.map_some,
      Option.some.injEq, bne_iff_ne, CardinalityComparison.Holds]
    rw [ne_eq, compare_gt_iff_gt]
    omega
  | maximum =>
    simp only [CardinalityKeyword.isValid, compareUsize_eq h hlen, Option.map_some,
      Option.some.injEq, bne_iff_ne, CardinalityComparison.Holds]
    rw [ne_eq, compare_lt_iff_lt]
    omega

/-- Every array of this length satisfies the keyword in every applicable schema. -/
def SatisfiesAll (usizeMax : Nat) (applicable : List Value) (key : String)
    (comparison : CardinalityComparison) (length : Nat) : Prop :=
  ∀ schema ∈ applicable, ∀ bound, schema.get key = some bound →
    ∀ keyword, cardinalityFactory bound comparison = some keyword →
      ∀ values : List Value, values.length = length →
        keyword.isValid usizeMax (.array values) = some true

theorem max_all {bounds : List Nat} {n : Nat} :
    (bounds.max?.all fun minimum => decide (n > minimum)) = true ↔ ∀ b ∈ bounds, b < n := by
  cases hm : bounds.max? with
  | none =>
    obtain rfl := List.max?_eq_none_iff.mp hm
    simp
  | some m =>
    obtain ⟨hmem, hle⟩ := List.max?_eq_some_iff.mp hm
    simp only [Option.all_some, decide_eq_true_eq]
    exact ⟨fun h b hb => Nat.lt_of_le_of_lt (hle b hb) h, fun h => h m hmem⟩

theorem min_all {bounds : List Nat} {n : Nat} :
    (bounds.min?.all fun maximum => decide (n < maximum)) = true ↔ ∀ b ∈ bounds, n < b := by
  cases hm : bounds.min? with
  | none =>
    obtain rfl := List.min?_eq_none_iff.mp hm
    simp
  | some m =>
    obtain ⟨hmem, hle⟩ := List.min?_eq_some_iff.mp hm
    simp only [Option.all_some, decide_eq_true_eq]
    exact ⟨fun h b hb => Nat.lt_of_lt_of_le h (hle b hb), fun h => h m hmem⟩

variable {applicable : List Value} {key : String}

/-- The bounds the form collects, by the bounds the validator reads. -/
theorem forall_bounds (hwf : ∀ schema ∈ applicable, schema.WF) {P : Nat → Prop} :
    (∀ b ∈ applicable.filterMap fun schema =>
        (schema.get key).bind (nonnegativeIntegerAsUsize usizeMax), P b) ↔
      ∀ schema ∈ applicable, ∀ value, schema.get key = some value →
        ∀ bound, ExactNonnegativeInteger.parse value = some bound →
          P (min bound.value usizeMax) := by
  constructor
  · intro h schema hs value hv bound hb
    rcases keyword_bound usizeMax (Value.get_wf (hwf schema hs) hv) with
      ⟨bound', hparse, -, hword⟩ | ⟨hparse, -⟩
    · obtain rfl := Option.some.inj (hparse.symm.trans hb)
      exact h _ (List.mem_filterMap.mpr ⟨schema, hs, by rw [hv, Option.bind_some, hword]⟩)
    · rw [hparse] at hb
      cases hb
  · intro h b hb
    obtain ⟨schema, hs, hb⟩ := List.mem_filterMap.mp hb
    obtain ⟨value, hv, hword⟩ := Option.bind_eq_some_iff.mp hb
    rcases keyword_bound usizeMax (Value.get_wf (hwf schema hs) hv) with
      ⟨bound, hparse, -, hword'⟩ | ⟨-, hword'⟩
    · obtain rfl := Option.some.inj (hword'.symm.trans hword)
      exact h schema hs value hv bound hparse
    · rw [hword'] at hword
      cases hword

theorem satisfiesAll_iff (hwf : ∀ schema ∈ applicable, schema.WF)
    {comparison : CardinalityComparison} {length : Nat} (hlen : length ≤ usizeMax) :
    SatisfiesAll usizeMax applicable key comparison length ↔
      ∀ schema ∈ applicable, ∀ value, schema.get key = some value →
        ∀ bound, ExactNonnegativeInteger.parse value = some bound →
          comparison.Holds bound.value length := by
  have hfactory {value : Value} {keyword : CardinalityKeyword} :
      cardinalityFactory value comparison = some keyword ↔ ∃ bound,
        ExactNonnegativeInteger.parse value = some bound ∧ ⟨bound, comparison⟩ = keyword := by
    rw [cardinalityFactory, Option.map_eq_some_iff]
  have hcanonical {schema value : Value} (hs : schema ∈ applicable)
      (hv : schema.get key = some value) {bound : ExactNonnegativeInteger}
      (hb : ExactNonnegativeInteger.parse value = some bound) : bound.Canonical := by
    rcases keyword_bound usizeMax (Value.get_wf (hwf schema hs) hv) with
      ⟨bound', hparse, hbound, -⟩ | ⟨hparse, -⟩
    · obtain rfl := Option.some.inj (hparse.symm.trans hb)
      exact hbound
    · rw [hparse] at hb
      cases hb
  constructor
  · intro h schema hs value hv bound hb
    have hreplicate : (List.replicate length Value.null).length = length := List.length_replicate
    have hvalid := h schema hs value hv ⟨bound, comparison⟩ (hfactory.mpr ⟨bound, hb, rfl⟩) _
      hreplicate
    rwa [isValid_iff (hcanonical hs hv hb) _ (by omega), hreplicate] at hvalid
  · intro h schema hs value hv keyword hk values hvalues
    obtain ⟨bound, hb, rfl⟩ := hfactory.mp hk
    rw [isValid_iff (hcanonical hs hv hb) _ (by omega), hvalues]
    exact h schema hs value hv bound hb

theorem presentArray_any {form : Form} {binding : Pointer} {array : ArrayState}
    (harray : form.array binding = some array) {P : ArrayState × List Value → Bool} :
    (form.presentArray binding).any P = true ↔ ∃ values,
      array.definition.binding.resolve form.formData = some (.array values) ∧
        P (array, values) = true := by
  simp only [Form.presentArray, harray, bind, Option.bind]
  cases hv : array.definition.binding.resolve form.formData with
  | none => simp
  | some value =>
    cases value with
    | array values => simp [Value.asArray, pure]
    | _ => simp [Value.asArray]

/-- The gates of an array are what its bounds allow, and a bound is compared as the number it
denotes. -/
theorem array_gates_exact (form : Form) (binding : Pointer) (array : ArrayState)
    (applicable : List Value) (harray : form.array binding = some array)
    (hbounds : arrayLengthBounds usizeMax applicable =
      (array.definition.minItems, array.definition.maxItems))
    (hwf : ∀ schema ∈ applicable, schema.WF)
    (hword : ∀ values, array.definition.binding.resolve form.formData = some (.array values) →
      values.length < usizeMax) :
    (form.arrayCanAppend binding = true ↔ ∃ values,
      array.definition.binding.resolve form.formData = some (.array values) ∧
        SatisfiesAll usizeMax applicable "maxItems" .maximum (values.length + 1)) ∧
    (form.arrayCanRemove binding = true ↔ ∃ values,
      array.definition.binding.resolve form.formData = some (.array values) ∧ values ≠ [] ∧
        SatisfiesAll usizeMax applicable "minItems" .minimum (values.length - 1)) ∧
    (∀ literal (k : Nat), Denotes literal k →
      ∃ bound, ExactNonnegativeInteger.parse (.number literal) = some bound) ∧
    ∀ literal q bound, Denotes literal q →
      ExactNonnegativeInteger.parse (.number literal) = some bound →
        ∀ n ≤ usizeMax, bound.compareUsize usizeMax n = some (compare q (n : ℚ)) := by
  obtain ⟨hmin, hmax⟩ := Prod.mk.inj hbounds
  refine ⟨?_, ?_, fun literal k hk => ?_, fun literal q bound hq hb n hn => ?_⟩
  · rw [Form.arrayCanAppend, presentArray_any harray]
    refine exists_congr fun values => and_congr_right fun hv => ?_
    have hlen := hword values hv
    dsimp only
    rw [← hmax, min_all, forall_bounds hwf, satisfiesAll_iff hwf hlen]
    simp only [CardinalityComparison.Holds]
    refine forall_congr' fun schema => forall_congr' fun _ => forall_congr' fun value =>
      forall_congr' fun _ => forall_congr' fun bound => forall_congr' fun _ => ?_
    omega
  · rw [Form.arrayCanRemove, presentArray_any harray]
    refine exists_congr fun values => and_congr_right fun hv => ?_
    have hlen := hword values hv
    dsimp only
    rw [Bool.and_eq_true, ← hmin, max_all, forall_bounds hwf,
      satisfiesAll_iff hwf (show values.length - 1 ≤ usizeMax by omega)]
    simp only [CardinalityComparison.Holds, Bool.not_eq_true', List.isEmpty_eq_false_iff]
    refine and_congr_right fun hne => ?_
    have hpos := List.length_pos_of_ne_nil hne
    refine forall_congr' fun schema => forall_congr' fun _ => forall_congr' fun value =>
      forall_congr' fun _ => forall_congr' fun bound => forall_congr' fun _ => ?_
    omega
  · rcases parse_eq hk with ⟨bound, hparse, -⟩ | ⟨-, hnone, -⟩
    · exact ⟨bound, hparse⟩
    · exact absurd ⟨k, rfl⟩ hnone
  · rcases parse_eq hq with ⟨bound', hparse, hbound, rfl, -⟩ | ⟨hparse, -⟩
    · obtain rfl := Option.some.inj (hparse.symm.trans hb)
      rw [compareUsize_eq hbound hn]
      rcases lt_trichotomy bound'.value n with h | h | h
      · rw [compare_lt_iff_lt.mpr h, compare_lt_iff_lt.mpr (Nat.cast_lt.mpr h)]
      · rw [compare_eq_iff_eq.mpr h, compare_eq_iff_eq.mpr (congrArg Nat.cast h)]
      · rw [compare_gt_iff_gt.mpr h, compare_gt_iff_gt.mpr (Nat.cast_lt.mpr h)]
    · rw [hparse] at hb
      cases hb

/-! ## A list of at most two -/

namespace BoundedSample

def pair : ArrayDefinition where
  binding := ["a"]
  parentBinding := none
  annotations := {}
  required := false
  creationSeed := .array []
  minItems := some 1
  maxItems := some 2
  uniqueItems := false
  itemTemplate := ⟨[], [], .null⟩

def schema : Value := .object [("maxItems", .number "0.2e1"), ("minItems", .number "1.0")]

def one : Form where
  controls := []
  arrays := [⟨pair, [⟨1, []⟩], false⟩]
  nextItemIdentity := 2
  baselineArrayIdentities := [[1]]
  baseline := .object [("a", .array [.null])]
  formData := .object [("a", .array [.null])]
  externalFindingBatches := []
  submissionAttempted := false
  dataRevision := 0
  stateRevision := 0

end BoundedSample

open BoundedSample in
theorem array_gates_exact_pair : one.arrayCanAppend ["a"] = true ↔ ∃ values,
    pair.binding.resolve one.formData = some (.array values) ∧
      SatisfiesAll (2 ^ 64 - 1) [schema] "maxItems" .maximum (values.length + 1) := by
  have hvalues : ∀ values, pair.binding.resolve one.formData = some (.array values) →
      values.length < 2 ^ 64 - 1 := by
    intro values h
    have hone : pair.binding.resolve one.formData = some (.array [.null]) := rfl
    obtain rfl : [Value.null] = values := by
      simpa using Option.some.inj (hone.symm.trans h)
    decide
  exact (array_gates_exact one ["a"] ⟨pair, [⟨1, []⟩], false⟩ [schema] rfl (by decide) (by decide)
    hvalues).1

end Schemaform.Engine
