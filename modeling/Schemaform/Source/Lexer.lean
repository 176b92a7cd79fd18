import Schemaform.Source.Scan

/-!
# Source.Lexer

The tokens both scans see, and the scans as folds over them.

* `lex`: the tokens of the rest of a document.
* `drop_skipString`, `slice_stringEnd`, `drop_skipWhile`: the inner loops on the rest.
* `sourceMetricsFrom_eq`, `sourceValueMetricsFrom_eq`: each scan folds its step over the tokens.
* `sourceValueMetrics_total`: no slice is out of range.
-/

namespace Schemaform.Source

inductive Token where
  | opened (byte : UInt8)
  | closed
  | string (length : Nat) (key : Bool)
  | scalar (length : Nat)
deriving DecidableEq, Repr

/-- The content of a string literal and the rest from its closing quote on. -/
def splitString : List UInt8 → List UInt8 × List UInt8
  | [] => ([], [])
  | [byte] => if byte = 0x22 then ([], [byte]) else ([byte], [])
  | byte :: next :: rest =>
    if byte = 0x5C then
      (byte :: next :: (splitString rest).1, (splitString rest).2)
    else if byte = 0x22 then ([], byte :: next :: rest)
    else (byte :: (splitString (next :: rest)).1, (splitString (next :: rest)).2)

theorem splitString_length (rest : List UInt8) :
    (splitString rest).1.length + (splitString rest).2.length = rest.length := by
  fun_induction splitString rest with
  | case1 => rfl
  | case2 => simp
  | case3 => simp
  | case4 next rest ih => simp only [List.length_cons]; omega
  | case5 => simp
  | case6 byte next rest h hq ih => simp only [List.length_cons] at ih ⊢; omega

def keyFollows (rest : List UInt8) : Bool :=
  match rest.dropWhile isAsciiWhitespace with
  | [] => false
  | byte :: _ => byte == 0x3A

def lex : List UInt8 → List Token
  | [] => []
  | byte :: rest =>
    if isOpen byte then .opened byte :: lex rest
    else if isClose byte then .closed :: lex rest
    else if byte = 0x22 then
      have := splitString_length rest
      .string (jsonStringDecodedLen (splitString rest).1)
        (keyFollows ((splitString rest).2.drop 1)) :: lex ((splitString rest).2.drop 1)
    else if startsNumber byte then
      have : (rest.dropWhile (!isDelimiter ·)).length ≤ rest.length :=
        (List.dropWhile_sublist _).length_le
      .scalar (1 + (rest.takeWhile (!isDelimiter ·)).length) :: lex (rest.dropWhile (!isDelimiter ·))
    else if startsLiteral byte then
      have : (rest.dropWhile isAsciiAlphabetic).length ≤ rest.length :=
        (List.dropWhile_sublist _).length_le
      .scalar (1 + (rest.takeWhile isAsciiAlphabetic).length) ::
        lex (rest.dropWhile isAsciiAlphabetic)
    else lex rest
termination_by rest => rest.length
decreasing_by all_goals simp only [List.length_cons, List.length_drop]; omega

/-! ## Inner loops -/

theorem drop_cons {bytes : List UInt8} {index : Nat} (h : index < bytes.length) :
    bytes.drop index = bytes[index] :: bytes.drop (index + 1) := List.drop_eq_getElem_cons h

theorem drop_skipWhile (keep : UInt8 → Bool) (bytes : List UInt8) (index : Nat) :
    bytes.drop (skipWhile keep bytes index) = (bytes.drop index).dropWhile keep := by
  fun_induction skipWhile keep bytes index with
  | case1 index h hkeep ih => rw [ih, drop_cons h, List.dropWhile_cons_of_pos hkeep]
  | case2 index h hkeep => rw [drop_cons h, List.dropWhile_cons_of_neg hkeep]
  | case3 index h => rw [List.drop_eq_nil_of_le (Nat.le_of_not_lt h), List.dropWhile_nil]

theorem skipWhile_sub (keep : UInt8 → Bool) (bytes : List UInt8) (index : Nat) :
    skipWhile keep bytes index = index + ((bytes.drop index).takeWhile keep).length := by
  fun_induction skipWhile keep bytes index with
  | case1 index h hkeep ih =>
    rw [ih, drop_cons h, List.takeWhile_cons_of_pos hkeep, List.length_cons]
    omega
  | case2 index h hkeep =>
    rw [drop_cons h, List.takeWhile_cons_of_neg hkeep]
    rfl
  | case3 index h =>
    rw [List.drop_eq_nil_of_le (Nat.le_of_not_lt h)]
    rfl

/-- One step of the loop over a string literal. -/
theorem splitString_plain {byte : UInt8} (rest : List UInt8) (he : byte ≠ 0x5C)
    (hq : byte ≠ 0x22) :
    splitString (byte :: rest) = (byte :: (splitString rest).1, (splitString rest).2) := by
  cases rest with
  | nil =>
    show (if byte = 0x22 then _ else _) = _
    rw [if_neg hq]
    rfl
  | cons next rest => rw [splitString, if_neg he, if_neg hq]

theorem splitString_quote (rest : List UInt8) :
    splitString (0x22 :: rest) = ([], 0x22 :: rest) := by
  cases rest with
  | nil => rfl
  | cons next rest => rw [splitString, if_neg (by decide), if_pos rfl]

theorem stringEnd_eq (bytes : List UInt8) (index : Nat) (hi : index ≤ bytes.length) :
    stringEnd bytes index = index + (splitString (bytes.drop index)).1.length := by
  fun_induction stringEnd bytes index with
  | case1 index h hescape ih =>
    rw [ih (Nat.min_le_right _ _), drop_cons h, hescape]
    by_cases hnext : index + 1 < bytes.length
    · rw [drop_cons hnext, splitString, if_pos rfl, Nat.min_eq_left (by omega),
        show index + 1 + 1 = index + 2 from rfl]
      simp only [List.length_cons]
      omega
    · have hnil : bytes.drop (index + 1) = [] := List.drop_eq_nil_of_le (by omega)
      rw [hnil, Nat.min_eq_right (by omega), List.drop_length]
      show bytes.length + 0 = index + 1
      omega
  | case2 index h hescape hquote =>
    rw [drop_cons h, hquote, splitString_quote]
    rfl
  | case3 index h hescape hquote ih =>
    rw [ih (by omega), drop_cons h, splitString_plain _ hescape hquote]
    simp only [List.length_cons]
    omega
  | case4 index h =>
    rw [List.drop_eq_nil_of_le (by omega)]
    rfl

theorem splitString_append (rest : List UInt8) :
    (splitString rest).1 ++ (splitString rest).2 = rest := by
  fun_induction splitString rest with
  | case1 => rfl
  | case2 => rfl
  | case3 => rfl
  | case4 next rest ih => simp only [List.cons_append, ih]
  | case5 => rfl
  | case6 byte next rest h hq ih => simp only [List.cons_append, ih]

theorem slice_stringEnd {bytes : List UInt8} {index : Nat} (hi : index ≤ bytes.length) :
    slice? bytes index (stringEnd bytes index) = some (splitString (bytes.drop index)).1 := by
  have hlength := splitString_length (bytes.drop index)
  rw [List.length_drop] at hlength
  rw [stringEnd_eq bytes index hi, slice?, if_pos (by omega), Nat.add_sub_cancel_left]
  have hprefix : (splitString (bytes.drop index)).1 <+: bytes.drop index :=
    ⟨_, splitString_append (bytes.drop index)⟩
  rw [← List.prefix_iff_eq_take.mp hprefix]

theorem drop_stringEnd {bytes : List UInt8} {index : Nat} (hi : index ≤ bytes.length) :
    bytes.drop (stringEnd bytes index) = (splitString (bytes.drop index)).2 := by
  rw [stringEnd_eq bytes index hi, ← List.drop_drop]
  have happend := congrArg (List.drop (splitString (bytes.drop index)).1.length)
    (splitString_append (bytes.drop index))
  rw [List.drop_left] at happend
  exact happend.symm

theorem skipString_eq (bytes : List UInt8) (index : Nat) :
    skipString bytes index = min (stringEnd bytes index + 1) (max bytes.length index) := by
  fun_induction skipString bytes index with
  | case1 index h hescape ih =>
    rw [ih, stringEnd.eq_def bytes index, dif_pos h, if_pos hescape]
    omega
  | case2 index h hescape hquote =>
    rw [stringEnd.eq_def, dif_pos h, if_neg hescape, if_pos hquote]
    omega
  | case3 index h hescape hquote ih =>
    rw [ih, stringEnd.eq_def bytes index, dif_pos h, if_neg hescape, if_neg hquote]
    omega
  | case4 index h =>
    rw [stringEnd.eq_def, dif_neg h]
    omega

theorem drop_skipString {bytes : List UInt8} {index : Nat} (hi : index ≤ bytes.length) :
    bytes.drop (skipString bytes index) = (splitString (bytes.drop index)).2.drop 1 := by
  rw [skipString_eq, ← drop_stringEnd hi, List.drop_drop, Nat.max_eq_left hi]
  by_cases hend : stringEnd bytes index + 1 ≤ bytes.length
  · rw [Nat.min_eq_left hend]
  · rw [Nat.min_eq_right (by omega), List.drop_length, List.drop_eq_nil_of_le (by omega)]

theorem isKey_eq (bytes : List UInt8) (stop : Nat) :
    isKey bytes stop = keyFollows (bytes.drop (stop + 1)) := by
  unfold isKey keyFollows
  rw [← drop_skipWhile]
  dsimp only
  by_cases h : skipWhile isAsciiWhitespace bytes (stop + 1) < bytes.length
  · rw [dif_pos h, drop_cons h]
  · rw [dif_neg h, List.drop_eq_nil_of_le (Nat.le_of_not_lt h)]

/-! ## Scans as folds -/

def SourceMetrics.step (metrics : SourceMetrics) : Token → SourceMetrics
  | .opened _ => metrics.enter
  | .closed => metrics.leave
  | .string _ _ | .scalar _ => metrics.token

theorem sourceMetricsFrom_eq (bytes : List UInt8) (index : Nat) (metrics : SourceMetrics) :
    sourceMetricsFrom bytes index metrics =
      (lex (bytes.drop index)).foldl SourceMetrics.step metrics := by
  fun_induction sourceMetricsFrom bytes index metrics with
  | case1 index metrics h hopen ih =>
    rw [ih, drop_cons h, lex, if_pos hopen]
    rfl
  | case2 index metrics h hopen hclose ih =>
    rw [ih, drop_cons h, lex, if_neg hopen, if_pos hclose]
    rfl
  | case3 index metrics h hopen hclose hquote _ ih =>
    rw [ih, drop_cons h, lex, if_neg hopen, if_neg hclose, if_pos hquote, drop_skipString h]
    rfl
  | case4 index metrics h hopen hclose hquote hnumber _ ih =>
    rw [ih, drop_cons h, lex, if_neg hopen, if_neg hclose, if_neg hquote, if_pos hnumber,
      drop_skipWhile]
    rfl
  | case5 index metrics h hopen hclose hquote hnumber hliteral _ ih =>
    rw [ih, drop_cons h, lex, if_neg hopen, if_neg hclose, if_neg hquote, if_neg hnumber,
      if_pos hliteral, drop_skipWhile]
    rfl
  | case6 index metrics h hopen hclose hquote hnumber hliteral ih =>
    rw [ih, drop_cons h, lex, if_neg hopen, if_neg hclose, if_neg hquote, if_neg hnumber,
      if_neg hliteral]
  | case7 index metrics h =>
    rw [List.drop_eq_nil_of_le (Nat.le_of_not_lt h), lex]
    rfl

/-- The state of the second scan. -/
structure ValueScan where
  metrics : SourceValueMetrics
  collections : Collections

namespace ValueScan

def step (scan : ValueScan) : Token → ValueScan
  | .opened byte => ⟨scan.metrics.node, (byte, 0) :: scan.collections.count 0x5B⟩
  | .closed =>
    match scan.collections with
    | (_, length) :: outer => ⟨scan.metrics.collection length, outer⟩
    | [] => ⟨scan.metrics, []⟩
  | .string length true => ⟨scan.metrics.member.scalar length, scan.collections.count 0x7B⟩
  | .string length false => ⟨scan.metrics.node.scalar length, scan.collections.count 0x5B⟩
  | .scalar length => ⟨scan.metrics.node.scalar length, scan.collections.count 0x5B⟩

/-- Collections left open count as well. -/
def finish (scan : ValueScan) : SourceValueMetrics :=
  scan.collections.foldl (fun metrics entry => metrics.collection entry.2) scan.metrics

end ValueScan

theorem sourceValueMetricsFrom_eq (bytes : List UInt8) (index : Nat)
    (metrics : SourceValueMetrics) (collections : Collections) :
    sourceValueMetricsFrom bytes index metrics collections =
      some ((lex (bytes.drop index)).foldl ValueScan.step ⟨metrics, collections⟩).finish := by
  fun_induction sourceValueMetricsFrom bytes index metrics collections with
  | case1 index metrics collections h hopen ih =>
    rw [ih, drop_cons h, lex, if_pos hopen]
    rfl
  | case2 index metrics h hopen hclose opened length outer ih =>
    rw [ih, drop_cons h, lex, if_neg hopen, if_pos hclose]
    rfl
  | case3 index metrics h hopen hclose ih =>
    rw [ih, drop_cons h, lex, if_neg hopen, if_pos hclose]
    rfl
  | case4 index metrics collections h hopen hclose hquote _ hslice =>
    rw [slice_stringEnd h] at hslice
    cases hslice
  | case5 index metrics collections h hopen hclose hquote _ content hslice scalarBytes hkey ih =>
    rw [slice_stringEnd h] at hslice
    obtain rfl := Option.some.inj hslice
    rw [isKey_eq, ← List.drop_drop, drop_stringEnd h] at hkey
    rw [ih, drop_cons h, lex, if_neg hopen, if_neg hclose, if_pos hquote, hkey,
      ← List.drop_drop, drop_stringEnd h]
    rfl
  | case6 index metrics collections h hopen hclose hquote _ content hslice scalarBytes hkey ih =>
    rw [slice_stringEnd h] at hslice
    obtain rfl := Option.some.inj hslice
    rw [isKey_eq, ← List.drop_drop, drop_stringEnd h, Bool.not_eq_true] at hkey
    rw [ih, drop_cons h, lex, if_neg hopen, if_neg hclose, if_pos hquote, hkey,
      ← List.drop_drop, drop_stringEnd h]
    rfl
  | case7 index metrics collections h hopen hclose hquote hnumber _ ih =>
    have hlength : skipWhile (!isDelimiter ·) bytes (index + 1) - index =
        1 + ((bytes.drop (index + 1)).takeWhile (!isDelimiter ·)).length := by
      rw [skipWhile_sub]
      omega
    rw [ih, drop_cons h, lex, if_neg hopen, if_neg hclose, if_neg hquote, if_pos hnumber,
      drop_skipWhile, hlength]
    rfl
  | case8 index metrics collections h hopen hclose hquote hnumber hliteral _ ih =>
    have hlength : skipWhile isAsciiAlphabetic bytes (index + 1) - index =
        1 + ((bytes.drop (index + 1)).takeWhile isAsciiAlphabetic).length := by
      rw [skipWhile_sub]
      omega
    rw [ih, drop_cons h, lex, if_neg hopen, if_neg hclose, if_neg hquote, if_neg hnumber,
      if_pos hliteral, drop_skipWhile, hlength]
    rfl
  | case9 index metrics collections h hopen hclose hquote hnumber hliteral ih =>
    rw [ih, drop_cons h, lex, if_neg hopen, if_neg hclose, if_neg hquote, if_neg hnumber,
      if_neg hliteral]
  | case10 index metrics collections h =>
    rw [List.drop_eq_nil_of_le (Nat.le_of_not_lt h), lex]
    rfl

/-- Every byte string is scanned to its end. -/
theorem sourceValueMetrics_total (bytes : List UInt8) :
    ∃ metrics, sourceValueMetrics bytes = some metrics :=
  ⟨_, sourceValueMetricsFrom_eq bytes 0 {} []⟩

end Schemaform.Source
