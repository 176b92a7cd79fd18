import Schemaform.Json.Value

/-!
# Json.Pointer

JSON Pointers, kept as their decoded tokens.

* `Pointer.text`: the RFC 6901 spelling, injective (`text_inj`), so equality and prefix of token
  lists are equality and token-boundary prefix of the spellings. `parse` reads it back
  (`parse_text`).
* `Token.toIndex`: array index tokens, canonical decimal numerals or `-`.
* `trichotomy`: two pointers are nested one way or the other, or apart.
-/

namespace Schemaform

abbrev Pointer := List String

/-! ## Spelling -/

namespace Pointer

def escapeChar (c : Char) : List Char :=
  if c = '~' then ['~', '0'] else if c = '/' then ['~', '1'] else [c]

def textChars (p : Pointer) : List Char :=
  p.flatMap fun token => '/' :: token.toList.flatMap escapeChar

def text (p : Pointer) : String := String.ofList p.textChars

example : text ["a/b", "m~n", "0"] = "/a~1b/m~0n/0" := by decide

theorem slash_notMem_escape (cs : List Char) : '/' ∉ cs.flatMap escapeChar := by
  intro h
  obtain ⟨c, _, hc⟩ := List.mem_flatMap.mp h
  unfold escapeChar at hc
  split at hc
  · simp at hc
  · split at hc
    · simp at hc
    · rename_i hne
      exact hne (List.mem_singleton.mp hc).symm

def unescape : List Char → List Char
  | '~' :: '0' :: cs => '~' :: unescape cs
  | '~' :: '1' :: cs => '/' :: unescape cs
  | c :: cs => c :: unescape cs
  | [] => []

theorem unescape_escape (cs : List Char) : unescape (cs.flatMap escapeChar) = cs := by
  induction cs with
  | nil => rfl
  | cons c cs ih =>
    rw [List.flatMap_cons, escapeChar]
    split
    · rename_i hc; subst hc; simp [unescape, ih]
    · split
      · rename_i hc; subst hc; simp [unescape, ih]
      · rename_i hne _
        rw [List.singleton_append, unescape, ih]
        · rintro _ rfl; exact absurd rfl hne
        · rintro _ rfl; exact absurd rfl hne

theorem escape_inj {cs ds : List Char} (h : cs.flatMap escapeChar = ds.flatMap escapeChar) :
    cs = ds := by
  rw [← unescape_escape cs, h, unescape_escape]

theorem takeWhile_escape (cs rest : List Char) (h : rest = [] ∨ ∃ r, rest = '/' :: r) :
    (cs.flatMap escapeChar ++ rest).takeWhile (· ≠ '/') = cs.flatMap escapeChar := by
  have hall : ∀ c ∈ cs.flatMap escapeChar, decide (c ≠ '/') = true := by
    intro c hc
    simp only [decide_eq_true_eq]
    rintro rfl
    exact slash_notMem_escape cs hc
  rw [List.takeWhile_append_of_pos hall]
  rcases h with rfl | ⟨r, rfl⟩ <;> simp

theorem textChars_head (p : Pointer) : p.textChars = [] ∨ ∃ r, p.textChars = '/' :: r := by
  cases p with
  | nil => exact .inl rfl
  | cons t p => exact .inr ⟨_, rfl⟩

theorem textChars_cons (t : String) (p : Pointer) :
    textChars (t :: p) = '/' :: (t.toList.flatMap escapeChar ++ textChars p) := rfl

theorem textChars_inj {p q : Pointer} (h : p.textChars = q.textChars) : p = q := by
  induction p generalizing q with
  | nil =>
    cases q with
    | nil => rfl
    | cons u q => rw [textChars_cons] at h; cases h
  | cons t p ih =>
    cases q with
    | nil => rw [textChars_cons] at h; cases h
    | cons u q =>
      rw [textChars_cons, textChars_cons, List.cons.injEq] at h
      obtain ⟨-, h⟩ := h
      have ht : t.toList.flatMap escapeChar = u.toList.flatMap escapeChar := by
        rw [← takeWhile_escape t.toList _ (textChars_head p), h,
          takeWhile_escape u.toList _ (textChars_head q)]
      rw [ht] at h
      rw [String.toList_inj.mp (escape_inj ht), ih (List.append_cancel_left h)]

/-- Two pointers with one spelling are the same token list. -/
theorem text_inj {p q : Pointer} (h : p.text = q.text) : p = q := by
  apply textChars_inj
  simpa [text] using congrArg String.toList h

/-! ## Reading -/

/-- A token with its two escapes undone, none on any other `~`. -/
def unescapeToken : List Char → Option (List Char)
  | [] => some []
  | '~' :: '0' :: cs => (unescapeToken cs).map ('~' :: ·)
  | '~' :: '1' :: cs => (unescapeToken cs).map ('/' :: ·)
  | '~' :: _ => none
  | c :: cs => (unescapeToken cs).map (c :: ·)

def parseTokens : List (List Char) → Option Pointer
  | [] => some []
  | token :: tokens => do
    let token ← unescapeToken token
    let tokens ← parseTokens tokens
    return String.ofList token :: tokens

def parse (value : String) : Option Pointer :=
  match value.toList with
  | [] => some []
  | '/' :: cs => parseTokens (cs.splitOn '/')
  | _ => none

example : parse "/a~1b/m~0n/0" = some ["a/b", "m~n", "0"] := by decide +kernel
example : parse "/a~2" = none := by decide +kernel

theorem unescapeToken_escape (cs : List Char) :
    unescapeToken (cs.flatMap escapeChar) = some cs := by
  induction cs with
  | nil => rfl
  | cons c cs ih =>
    rw [List.flatMap_cons, escapeChar]
    by_cases htilde : c = '~'
    · subst htilde
      rw [if_pos rfl, List.cons_append, List.singleton_append, unescapeToken, ih]
      rfl
    · rw [if_neg htilde]
      by_cases hslash : c = '/'
      · subst hslash
        rw [if_pos rfl, List.cons_append, List.singleton_append, unescapeToken, ih]
        rfl
      · rw [if_neg hslash, List.singleton_append, unescapeToken, ih]
        · rfl
        all_goals
          intros
          simp_all

theorem parseTokens_split (t : String) (p : Pointer) :
    parseTokens ((t.toList.flatMap escapeChar ++ p.textChars).splitOn '/') = some (t :: p) := by
  induction p generalizing t with
  | nil =>
    rw [show textChars [] = [] from rfl, List.append_nil,
      List.splitOn_eq_singleton (slash_notMem_escape t.toList), parseTokens, unescapeToken_escape]
    simp [parseTokens]
  | cons u p ih =>
    rw [textChars_cons, List.splitOn_append_cons_of_beq _ _ (BEq.refl '/'),
      List.splitOn_eq_singleton (slash_notMem_escape t.toList), List.singleton_append, parseTokens,
      unescapeToken_escape, ih u]
    simp

theorem parse_text (p : Pointer) : parse p.text = some p := by
  cases p with
  | nil => rfl
  | cons t p =>
    rw [parse, text, String.toList_ofList, textChars_cons]
    exact parseTokens_split t p

/-! ## Nesting -/

@[simp] theorem textChars_append (p q : Pointer) :
    textChars (p ++ q) = textChars p ++ textChars q := List.flatMap_append

/-- `self` begins with every token of `other`. -/
def startsWith (self other : Pointer) : Bool := other.isPrefixOf self

theorem startsWith_iff {p q : Pointer} : p.startsWith q = true ↔ ∃ r, p = q ++ r := by
  rw [startsWith, List.isPrefixOf_iff_prefix]
  constructor
  · rintro ⟨r, rfl⟩; exact ⟨r, rfl⟩
  · rintro ⟨r, rfl⟩; exact ⟨r, rfl⟩

@[simp] theorem startsWith_append (p r : Pointer) : (p ++ r).startsWith p = true :=
  startsWith_iff.mpr ⟨r, rfl⟩

@[simp] theorem startsWith_self (p : Pointer) : p.startsWith p = true :=
  startsWith_iff.mpr ⟨[], by simp⟩

def splitBack (p : Pointer) : Option (Pointer × String) :=
  p.getLast?.map fun back => (p.dropLast, back)

theorem splitBack_eq_some {p parent : Pointer} {back : String} :
    p.splitBack = some (parent, back) ↔ p = parent ++ [back] := by
  simp only [splitBack, Option.map_eq_some_iff, Prod.mk.injEq]
  constructor
  · rintro ⟨b, hb, rfl, rfl⟩
    exact (List.dropLast_append_getLast? _ hb).symm
  · rintro rfl
    exact ⟨back, by simp⟩

theorem splitBack_eq_none {p : Pointer} : p.splitBack = none ↔ p = [] := by
  simp [splitBack]

/-- Neither pointer is a prefix of the other. -/
def Apart (p q : Pointer) : Prop := p.startsWith q = false ∧ q.startsWith p = false

instance (p q : Pointer) : Decidable (p.Apart q) := inferInstanceAs (Decidable (_ ∧ _))

theorem Apart.symm {p q : Pointer} (h : p.Apart q) : q.Apart p := ⟨h.2, h.1⟩

theorem apart_cons {t : String} {p q : Pointer} : Apart (t :: p) (t :: q) ↔ Apart p q := by
  simp [Apart, startsWith]

theorem Apart.append_left {p q : Pointer} (h : p.Apart q) (r : Pointer) : (p ++ r).Apart q := by
  constructor
  · refine Bool.eq_false_iff.mpr fun hs => ?_
    obtain ⟨s, hs⟩ := startsWith_iff.mp hs
    rcases List.append_eq_append_iff.mp hs with ⟨a, ha, -⟩ | ⟨a, ha, -⟩
    · exact absurd (startsWith_iff.mpr ⟨a, ha⟩) (by simp [h.2])
    · exact absurd (startsWith_iff.mpr ⟨a, ha⟩) (by simp [h.1])
  · refine Bool.eq_false_iff.mpr fun hs => ?_
    obtain ⟨s, rfl⟩ := startsWith_iff.mp hs
    exact absurd h.2 (by simp)

/-- Two pointers are nested one way or the other, or apart. -/
theorem trichotomy (p q : Pointer) :
    (∃ r, q = p ++ r) ∨ (∃ t r, p = q ++ t :: r) ∨ p.Apart q := by
  by_cases h₁ : q.startsWith p = true
  · exact .inl (startsWith_iff.mp h₁)
  · by_cases h₂ : p.startsWith q = true
    · obtain ⟨r, rfl⟩ := startsWith_iff.mp h₂
      cases r with
      | nil => exact absurd (by simp) h₁
      | cons t r => exact .inr (.inl ⟨t, r, rfl⟩)
    · exact .inr (.inr ⟨by simpa using h₂, by simpa using h₁⟩)

end Pointer

/-! ## Index tokens -/

inductive Index where
  | num (n : Nat)
  | next
deriving DecidableEq, Repr

namespace Token

/-- A decimal numeral without leading zeros. -/
def toNumeral (token : String) : Option Nat :=
  let n := Nat.ofDigitChars 10 token.toList 0
  if Nat.repr n = token then some n else none

/-- `-`, or a numeral that fits a machine word. -/
def toIndex (token : String) : Option Index :=
  if token = "-" then some .next
  else ((toNumeral token).filter (· < 2 ^ 64)).map .num

/-- The index a token selects in an array of length `len`. A `Vec` is shorter than the machine
word can count, so a numeral below `len` is an index as well. -/
def indexFor (token : String) (len : Nat) : Option Nat := (toNumeral token).filter (· < len)

example : toIndex "10" = some (.num 10) := by decide
example : toIndex "01" = none := by decide

@[simp] theorem toNumeral_repr (n : Nat) : toNumeral (Nat.repr n) = some n := by
  have hn : Nat.ofDigitChars 10 (Nat.repr n).toList 0 = n := by
    rw [Nat.toList_repr, Nat.ofDigitChars_ten_toDigits]
  simp only [toNumeral, hn, if_pos]

theorem toNumeral_eq_some {token : String} {n : Nat} (h : toNumeral token = some n) :
    token = Nat.repr n := by
  unfold toNumeral at h
  simp only at h
  split at h
  · rename_i hn
    cases h
    exact hn.symm
  · cases h

theorem indexFor_eq_some {token : String} {len n : Nat} :
    indexFor token len = some n ↔ token = Nat.repr n ∧ n < len := by
  simp only [indexFor, Option.filter_eq_some_iff, decide_eq_true_eq]
  refine and_congr_left fun _ => ⟨toNumeral_eq_some, ?_⟩
  rintro rfl
  exact toNumeral_repr n

theorem indexFor_repr {n len : Nat} (h : n < len) : indexFor (Nat.repr n) len = some n :=
  indexFor_eq_some.mpr ⟨rfl, h⟩

theorem repr_inj {m n : Nat} (h : Nat.repr m = Nat.repr n) : m = n := by
  have := congrArg (fun s => Nat.ofDigitChars 10 s.toList 0) h
  simpa [Nat.toList_repr, Nat.ofDigitChars_ten_toDigits] using this

end Token

end Schemaform
