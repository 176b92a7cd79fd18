import Mathlib.Algebra.Order.Field.Power
import Mathlib.Data.Char
import Mathlib.Data.List.TakeWhile
import Mathlib.Data.Nat.Digits.Defs
import Mathlib.Data.Rat.Cast.Order
import Mathlib.Tactic.NormNum

/-!
# Lib.Decimal

Decimal numerals: lists of digit characters, and numerals with a sign and a power of ten.

* `IsDigits`, `value`: digit lists and the numbers they write.
* `value_append`, `value_lt`, `value_inj`: positional notation; without leading zeros a number has
  one numeral.
* `compare_value`: numerals of one length compare as their numbers.
* `scaled`: `± n * 10 ^ scale` as a rational.
* `scaled_inj`: with a last digit that is not zero, sign, digits and scale are determined.
* `scaled_isInt`: such a number is an integer exactly when its scale is not negative.
-/

namespace Decimal

def IsDigits (ds : List Char) : Prop := ∀ c ∈ ds, c.isDigit = true

/-- The number a digit writes. -/
def digit (c : Char) : Nat := c.toNat - '0'.toNat

def value (ds : List Char) : Nat := Nat.ofDigitChars 10 ds 0

variable {c : Char} {ds es : List Char}

theorem IsDigits.nil : IsDigits [] := by simp [IsDigits]

theorem isDigits_cons : IsDigits (c :: ds) ↔ c.isDigit = true ∧ IsDigits ds := by
  simp [IsDigits]

theorem isDigits_append : IsDigits (ds ++ es) ↔ IsDigits ds ∧ IsDigits es := by
  simp only [IsDigits, List.mem_append]
  exact ⟨fun h => ⟨fun c hc => h c (.inl hc), fun c hc => h c (.inr hc)⟩,
    fun h c hc => hc.elim (h.1 c) (h.2 c)⟩

theorem IsDigits.sublist (h : IsDigits ds) (hs : es.Sublist ds) : IsDigits es :=
  fun c hc => h c (hs.subset hc)

theorem digit_lt (h : c.isDigit = true) : digit c < 10 := by
  simp only [Char.isDigit, Bool.and_eq_true, decide_eq_true_eq] at h
  have h₁ : (48 : Nat) ≤ c.toNat := UInt32.le_iff_toNat_le.mp h.1
  have h₂ : c.toNat ≤ 57 := UInt32.le_iff_toNat_le.mp h.2
  simp only [digit, show '0'.toNat = 48 from rfl]
  omega

theorem digit_inj {d : Char} (hc : c.isDigit = true) (hd : d.isDigit = true)
    (h : digit c = digit d) : c = d := by
  simp only [Char.isDigit, Bool.and_eq_true, decide_eq_true_eq] at hc hd
  have h₁ : (48 : Nat) ≤ c.toNat := UInt32.le_iff_toNat_le.mp hc.1
  have h₂ : (48 : Nat) ≤ d.toNat := UInt32.le_iff_toNat_le.mp hd.1
  simp only [digit, show '0'.toNat = 48 from rfl] at h
  exact Char.toNat_inj.mp (by omega)

theorem digit_eq_zero (hc : c.isDigit = true) : digit c = 0 ↔ c = '0' :=
  ⟨fun h => digit_inj hc rfl h, fun h => h ▸ rfl⟩

/-! ## Positional notation -/

@[simp] theorem value_nil : value [] = 0 := Nat.ofDigitChars_nil

theorem value_cons : value (c :: ds) = 10 ^ ds.length * digit c + value ds := by
  rw [value, Nat.ofDigitChars_cons, Nat.ofDigitChars_eq_ofDigitChars_zero, Nat.mul_zero,
    Nat.zero_add]
  rfl

theorem value_append : value (ds ++ es) = 10 ^ es.length * value ds + value es := by
  rw [value, Nat.ofDigitChars_append, Nat.ofDigitChars_eq_ofDigitChars_zero]
  rfl

theorem value_concat : value (ds ++ [c]) = 10 * value ds + digit c := by
  rw [value_append, value_cons]
  simp

theorem value_replicate_zero (n : Nat) : value (List.replicate n '0') = 0 := by
  rw [value, Nat.ofDigitChars_replicate_zero, Nat.mul_zero]

theorem value_lt (h : IsDigits ds) : value ds < 10 ^ ds.length := by
  induction ds with
  | nil => simp
  | cons c ds ih =>
    obtain ⟨hc, hds⟩ := isDigits_cons.mp h
    have hlt := digit_lt hc
    have hmul : 10 ^ ds.length * digit c ≤ 10 ^ ds.length * 9 := Nat.mul_le_mul_left _ (by omega)
    have := ih hds
    rw [value_cons, List.length_cons, pow_succ]
    omega

theorem value_eq_zero (h : IsDigits ds) : value ds = 0 ↔ ∀ c ∈ ds, c = '0' := by
  induction ds with
  | nil => simp
  | cons c ds ih =>
    obtain ⟨hc, hds⟩ := isDigits_cons.mp h
    rw [value_cons, List.forall_mem_cons, ← ih hds, ← digit_eq_zero hc]
    have hpos : 10 ^ ds.length ≠ 0 := by positivity
    rw [Nat.add_eq_zero_iff, Nat.mul_eq_zero]
    simp only [hpos, false_or]

theorem pow_le_value (h : IsDigits (c :: ds)) (hc : c ≠ '0') :
    10 ^ ds.length ≤ value (c :: ds) := by
  have hne : digit c ≠ 0 := fun h0 => hc ((digit_eq_zero (isDigits_cons.mp h).1).mp h0)
  have hmul := Nat.mul_le_mul_left (10 ^ ds.length) (Nat.one_le_iff_ne_zero.mpr hne)
  rw [value_cons]
  omega

theorem value_dropWhile (ds : List Char) : value (ds.dropWhile (· == '0')) = value ds := by
  induction ds with
  | nil => rfl
  | cons c ds ih =>
    by_cases hc : c = '0'
    · subst hc
      rw [List.dropWhile_cons_of_pos (by simp), ih, value_cons]
      simp [digit]
    · rw [List.dropWhile_cons_of_neg (by simpa using hc)]

theorem value_inj_length (hd : IsDigits ds) (he : IsDigits es) (hlen : ds.length = es.length)
    (h : value ds = value es) : ds = es := by
  induction ds generalizing es with
  | nil => exact (List.length_eq_zero_iff.mp hlen.symm).symm
  | cons c ds ih =>
    cases es with
    | nil => cases hlen
    | cons e es =>
      obtain ⟨hc, hds⟩ := isDigits_cons.mp hd
      obtain ⟨he, hes⟩ := isDigits_cons.mp he
      have hlen' : ds.length = es.length := Nat.succ.inj hlen
      have hlt := value_lt hds
      have hlt' := value_lt hes
      rw [value_cons, value_cons, ← hlen'] at h
      rw [← hlen'] at hlt'
      have hdigit : digit c = digit e := by
        have hdiv := congrArg (· / 10 ^ ds.length) h
        have hpos : 0 < 10 ^ ds.length := by positivity
        simpa [Nat.mul_add_div hpos, Nat.div_eq_of_lt hlt, Nat.div_eq_of_lt hlt'] using hdiv
      rw [hdigit] at h
      rw [digit_inj hc he hdigit, ih hds hes hlen' (by omega)]

/-- Without leading zeros the number determines its numeral. -/
theorem value_inj (hd : IsDigits ds) (he : IsDigits es) (hd0 : ds.head? ≠ some '0')
    (he0 : es.head? ≠ some '0') (h : value ds = value es) : ds = es := by
  refine value_inj_length hd he ?_ h
  have key {ds es : List Char} (hd : IsDigits ds) (he : IsDigits es)
      (he0 : es.head? ≠ some '0') (h : value ds = value es) : es.length ≤ ds.length := by
    cases es with
    | nil => exact Nat.zero_le _
    | cons e es =>
      have hle := pow_le_value he (by simpa using he0)
      have hlt := value_lt hd
      rw [List.length_cons]
      by_contra hgt
      have := Nat.pow_le_pow_right (by omega : 0 < 10) (by omega : ds.length ≤ es.length)
      omega
  exact Nat.le_antisymm (key he hd hd0 h.symm) (key hd he he0 h)

theorem digit_lt_digit {d : Char} (hc : c.isDigit = true) (h : c < d) : digit c < digit d := by
  simp only [Char.isDigit, Bool.and_eq_true, decide_eq_true_eq] at hc
  have hlow : (48 : Nat) ≤ c.toNat := UInt32.le_iff_toNat_le.mp hc.1
  have hlt : c.toNat < d.toNat := UInt32.lt_iff_toNat_lt.mp h
  simp only [digit, show '0'.toNat = 48 from rfl]
  omega

theorem value_cons_lt {d : Char} (hd : IsDigits (c :: ds))
    (hlen : ds.length = es.length) (h : c < d) : value (c :: ds) < value (d :: es) := by
  obtain ⟨hc, hds⟩ := isDigits_cons.mp hd
  have hlt := digit_lt_digit hc h
  have hmul := Nat.mul_le_mul_left (10 ^ ds.length) (Nat.succ_le_of_lt hlt)
  have hlow := value_lt hds
  rw [value_cons, value_cons, ← hlen]
  rw [Nat.succ_eq_add_one, Nat.mul_add, Nat.mul_one] at hmul
  omega

/-- Numerals of one length compare as text the way their numbers do. -/
theorem compare_value (hd : IsDigits ds) (he : IsDigits es) (hlen : ds.length = es.length) :
    compare ds es = compare (value ds) (value es) := by
  induction ds generalizing es with
  | nil =>
    obtain rfl := List.length_eq_zero_iff.mp hlen.symm
    rfl
  | cons c ds ih =>
    cases es with
    | nil => cases hlen
    | cons d es =>
      have hlen' : ds.length = es.length := Nat.succ.inj hlen
      rw [List.compare_cons_cons]
      rcases lt_trichotomy c d with h | rfl | h
      · rw [compare_lt_iff_lt.mpr h, compare_lt_iff_lt.mpr (value_cons_lt hd hlen' h)]
        rfl
      · rw [ih (isDigits_cons.mp hd).2 (isDigits_cons.mp he).2 hlen', value_cons, value_cons, hlen',
          compare_eq_iff_eq.mpr rfl]
        generalize 10 ^ es.length * digit c = high
        rcases lt_trichotomy (value ds) (value es) with h | h | h
        · rw [compare_lt_iff_lt.mpr h, compare_lt_iff_lt.mpr (by omega : high + _ < high + _)]
          rfl
        · rw [h, compare_eq_iff_eq.mpr rfl, compare_eq_iff_eq.mpr rfl]
          rfl
        · rw [compare_gt_iff_gt.mpr h, compare_gt_iff_gt.mpr (by omega : high + _ > high + _)]
          rfl
      · rw [compare_gt_iff_gt.mpr h, compare_gt_iff_gt.mpr (value_cons_lt he hlen'.symm h)]
        rfl
theorem isDigits_toDigits (n : Nat) : IsDigits (Nat.toDigits 10 n) :=
  fun _ hc => Nat.isDigit_of_mem_toDigits (by omega) (by omega) hc

theorem value_toDigits (n : Nat) : value (Nat.toDigits 10 n) = n := Nat.ofDigitChars_ten_toDigits

/-- A numeral without leading zeros is the shortest one. -/
theorem toDigits_value (hd : IsDigits ds) (hne : ds ≠ []) (h0 : ds.head? ≠ some '0') :
    Nat.toDigits 10 (value ds) = ds := by
  refine value_inj_length (isDigits_toDigits _) hd ?_ (value_toDigits _)
  obtain ⟨c, cs, rfl⟩ := List.exists_cons_of_ne_nil hne
  have hlow := pow_le_value hd (by simpa using h0)
  have hhigh := value_lt hd
  refine Nat.le_antisymm ?_ ?_
  · exact (Nat.length_toDigits_le_iff (by omega) (by simp)).mpr hhigh
  · rw [List.length_cons]
    by_contra hlt
    cases cs with
    | nil =>
      have := Nat.length_toDigits_pos (b := 10) (n := value [c])
      simp at hlt
    | cons d cs =>
      have hle : (Nat.toDigits 10 (value (c :: d :: cs))).length ≤ (d :: cs).length := by omega
      have := (Nat.length_toDigits_le_iff (by omega) (by simp)).mp hle
      omega

theorem value_mod_ten (hc : c.isDigit = true) : value (ds ++ [c]) % 10 = digit c := by
  rw [value_concat]
  have := digit_lt hc
  omega

/-! ## Zeros at the ends -/

/-- The zeros a list ends in. -/
def trailingZeros (ds : List Char) : Nat := (ds.reverse.takeWhile (· == '0')).length

theorem trailingZeros_le (ds : List Char) : trailingZeros ds ≤ ds.length := by
  have := (List.takeWhile_sublist (l := ds.reverse) (· == '0')).length_le
  rwa [List.length_reverse] at this

theorem eq_trailingZeros (ds : List Char) :
    ds = ds.take (ds.length - trailingZeros ds) ++ List.replicate (trailingZeros ds) '0' := by
  have hzeros : (ds.reverse.takeWhile (· == '0')).reverse =
      List.replicate (trailingZeros ds) '0' := by
    refine List.eq_replicate_iff.mpr ⟨by simp [trailingZeros], ?_⟩
    intro c hc
    simpa using List.mem_takeWhile_imp (List.mem_reverse.mp hc)
  have hsplit : ds = (ds.reverse.dropWhile (· == '0')).reverse ++
      List.replicate (trailingZeros ds) '0' := by
    rw [← hzeros, ← List.reverse_append, List.takeWhile_append_dropWhile, List.reverse_reverse]
  have hlen := congrArg List.length hsplit
  rw [List.length_append, List.length_replicate] at hlen
  have htake : ds.take (ds.length - trailingZeros ds) =
      (ds.reverse.dropWhile (· == '0')).reverse := by
    conv_lhs => rw [hsplit]
    rw [List.take_left']
    rw [← hsplit]
    omega
  rw [htake]
  exact hsplit

/-- What is left ends in another digit. -/
theorem getLast_take_trailingZeros {ds : List Char}
    (hne : ds.take (ds.length - trailingZeros ds) ≠ []) :
    ∃ front c, ds.take (ds.length - trailingZeros ds) = front ++ [c] ∧ c ≠ '0' := by
  have heq := eq_trailingZeros ds
  generalize hcore : ds.take (ds.length - trailingZeros ds) = core at heq hne
  obtain ⟨front, c, rfl⟩ : ∃ front c, core = front ++ [c] :=
    ⟨core.dropLast, core.getLast hne, (List.dropLast_concat_getLast hne).symm⟩
  refine ⟨front, c, rfl, ?_⟩
  rintro rfl
  -- one more zero at the end
  have hrev : ds.reverse = List.replicate (trailingZeros ds + 1) '0' ++ front.reverse := by
    conv_lhs => rw [heq]
    simp [List.replicate_succ']
  have hcount : trailingZeros ds + 1 ≤ trailingZeros ds := by
    conv_rhs => rw [trailingZeros, hrev, List.takeWhile_append_of_pos (by simp)]
    simp
  omega

theorem value_take_trailingZeros (ds : List Char) :
    value ds = value (ds.take (ds.length - trailingZeros ds)) * 10 ^ trailingZeros ds := by
  conv_lhs => rw [eq_trailingZeros ds]
  rw [value_append, value_replicate_zero, List.length_replicate, Nat.add_zero, Nat.mul_comm]

/-! ## Signed and scaled -/

def scaled (negative : Bool) (n : Nat) (scale : Int) : ℚ :=
  (if negative then -1 else 1) * n * 10 ^ scale

theorem scaled_add (negative : Bool) (n : Nat) (scale : Int) (k : Nat) :
    scaled negative (n * 10 ^ k) scale = scaled negative n (scale + k) := by
  have h10 : (10 : ℚ) ≠ 0 := by norm_num
  simp only [scaled, Nat.cast_mul, Nat.cast_pow, Nat.cast_ofNat, zpow_add₀ h10, zpow_natCast]
  ring

theorem scaled_nonneg (negative : Bool) (n k : Nat) :
    scaled negative n (k : Int) = ((if negative then -1 else 1) * (n * 10 ^ k : Nat) : Int) := by
  cases negative <;> simp [scaled]

theorem abs_scaled (negative : Bool) (n : Nat) (scale : Int) :
    |scaled negative n scale| = n * 10 ^ scale := by
  have hpos : (0 : ℚ) ≤ n * 10 ^ scale := by positivity
  cases negative <;> simp [scaled, abs_of_nonneg hpos]

/-- Equal numbers whose digits do not end in zero agree in digits and scale. -/
theorem mul_pow_inj {m n : Nat} {a b : Int} (hm : m % 10 ≠ 0) (hn : n % 10 ≠ 0)
    (h : (m : ℚ) * 10 ^ a = n * 10 ^ b) : m = n ∧ a = b := by
  have h10 : (10 : ℚ) ≠ 0 := by norm_num
  have key {m n : Nat} {a b : Int} (hm : m % 10 ≠ 0) (h : (m : ℚ) * 10 ^ a = n * 10 ^ b) :
      ¬ a < b := by
    intro hlt
    obtain ⟨k, hk⟩ : ∃ k : Nat, b = a + (k + 1 : Nat) := ⟨(b - a - 1).toNat, by omega⟩
    rw [hk, zpow_add₀ h10, zpow_natCast, mul_left_comm, mul_comm (m : ℚ)] at h
    have hcancel : (m : ℚ) = n * 10 ^ (k + 1) := mul_left_cancel₀ (zpow_ne_zero a h10) h
    have hnat : m = n * 10 ^ (k + 1) := by exact_mod_cast hcancel
    rw [pow_succ] at hnat
    exact hm (by rw [hnat, ← mul_assoc, Nat.mul_mod_left])
  have hab : a = b := by
    have h₁ := key hm h
    have h₂ := key hn h.symm
    omega
  subst hab
  have hcancel : (m : ℚ) = n := mul_right_cancel₀ (zpow_ne_zero a h10) h
  exact ⟨by exact_mod_cast hcancel, rfl⟩

theorem scaled_inj {s t : Bool} {m n : Nat} {a b : Int} (hm : m % 10 ≠ 0) (hn : n % 10 ≠ 0)
    (h : scaled s m a = scaled t n b) : s = t ∧ m = n ∧ a = b := by
  have habs := congrArg (|·|) h
  simp only [abs_scaled] at habs
  obtain ⟨rfl, rfl⟩ := mul_pow_inj hm hn habs
  refine ⟨?_, rfl, rfl⟩
  have hpos : (0 : ℚ) < m * 10 ^ a := by
    have : 0 < m := by omega
    positivity
  cases s <;> cases t <;> simp only [scaled, if_true, Bool.false_eq_true, if_false] at h ⊢ <;>
    linarith

theorem scaled_ne_zero {s : Bool} {m : Nat} {a : Int} (hm : m ≠ 0) : scaled s m a ≠ 0 := by
  intro h
  have habs := abs_scaled s m a
  rw [h, abs_zero] at habs
  have hpos : (0 : ℚ) < m * 10 ^ a := by
    have : 0 < m := by omega
    positivity
  exact absurd habs hpos.ne

theorem scaled_neg {s : Bool} {m : Nat} {a : Int} (hm : m ≠ 0) : scaled s m a < 0 ↔ s = true := by
  have hpos : (0 : ℚ) < m * 10 ^ a := by
    have : 0 < m := by omega
    positivity
  cases s <;> simp only [scaled, if_true, Bool.false_eq_true, if_false, iff_true, iff_false] <;>
    linarith

theorem scaled_isInt {s : Bool} {m : Nat} {a : Int} (hm : m % 10 ≠ 0) :
    (∃ z : Int, scaled s m a = z) ↔ 0 ≤ a := by
  constructor
  · rintro ⟨z, hz⟩
    by_contra hneg
    obtain ⟨k, rfl⟩ : ∃ k : Nat, a = -(k + 1 : Nat) := ⟨(-a - 1).toNat, by omega⟩
    have habs := congrArg (|·|) hz
    simp only [abs_scaled, ← Int.cast_abs] at habs
    rw [zpow_neg, zpow_natCast, mul_inv_eq_iff_eq_mul₀ (by positivity)] at habs
    have hint : (m : Int) = |z| * 10 ^ (k + 1) := by exact_mod_cast habs
    rw [pow_succ, ← mul_assoc] at hint
    omega
  · intro h
    obtain ⟨k, rfl⟩ := Int.eq_ofNat_of_zero_le h
    exact ⟨_, scaled_nonneg s m k⟩

end Decimal
