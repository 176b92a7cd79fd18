import Mathlib.Algebra.Ring.Nat
import Mathlib.Data.List.Forall2

/-!
# Lib.SelfDelimiting

Streams that tell where they end.

* `Decodes`: whatever follows, the stream of `a` is split off again, up to a relation on what was
  encoded.
* `of_length`, `append`, `comap`, `cons`, `flatMap`, `counted`: how such streams are built.
* `related`, `not_proper_start`, `flatMap_concat`: one stream, prefixes, and lists of streams.
* `DecodesBefore`, `separated`: streams that what follows brings to an end, and lists of them with a
  separator.
* `toBeBytes`: a fixed number of bytes, most significant first.
-/

namespace SelfDelimiting

variable {α β γ : Type}

/-- The stream of `a` can be split off a stream that begins with the stream of some `b`, and `b`
is related to `a`. -/
def Decodes (P : α → Prop) (R : α → α → Prop) (enc : α → List β) (a : α) : Prop :=
  ∀ b, P b → ∀ s t, enc a ++ s = enc b ++ t → R a b ∧ s = t

variable {P : α → Prop} {R : α → α → Prop} {enc : α → List β} {a b : α}

theorem Decodes.related (h : Decodes P R enc a) (hb : P b) (heq : enc a = enc b) : R a b :=
  (h b hb [] [] (by rw [heq])).1

theorem Decodes.not_proper_start (h : Decodes P R enc a) (hb : P b) (hp : enc a <+: enc b) :
    enc a = enc b := by
  obtain ⟨s, hs⟩ := hp
  have hnil := (h b hb s [] (by rw [hs, List.append_nil])).2
  rw [← hs, hnil, List.append_nil]

/-- Streams of one length are split by counting. -/
theorem Decodes.of_length (hlen : ∀ b, P b → (enc a).length = (enc b).length)
    (hinj : ∀ b, P b → enc a = enc b → R a b) : Decodes P R enc a := by
  intro b hb s t h
  obtain ⟨heq, hst⟩ := List.append_inj h (hlen b hb)
  exact ⟨hinj b hb heq, hst⟩

theorem Decodes.append {S : α → α → Prop} {enc' : α → List β} (h : Decodes P R enc a)
    (h' : Decodes P S enc' a) :
    Decodes P (fun a b => R a b ∧ S a b) (fun a => enc a ++ enc' a) a := by
  intro b hb s t heq
  rw [List.append_assoc, List.append_assoc] at heq
  obtain ⟨hr, heq⟩ := h b hb _ _ heq
  obtain ⟨hs, heq⟩ := h' b hb _ _ heq
  exact ⟨⟨hr, hs⟩, heq⟩

theorem Decodes.comap {g : γ → α} {c : γ} {Q : γ → Prop} (h : Decodes P R enc (g c))
    (hQ : ∀ d, Q d → P (g d)) :
    Decodes Q (fun c d => R (g c) (g d)) (fun c => enc (g c)) c :=
  fun d hd s t heq => h (g d) (hQ d hd) s t heq

theorem Decodes.cons {tag : β} (h : Decodes P R enc a) :
    Decodes P R (fun a => tag :: enc a) a :=
  fun b hb s t heq => h b hb s t (List.cons.inj heq).2

theorem Decodes.mono {S : α → α → Prop} (h : Decodes P R enc a)
    (himp : ∀ b, P b → R a b → S a b) : Decodes P S enc a := by
  intro b hb s t heq
  obtain ⟨hr, hst⟩ := h b hb s t heq
  exact ⟨himp b hb hr, hst⟩

/-! ## Lists -/

/-- Lists of one length, item by item. -/
theorem flatMap_decodes {as bs : List α} (h : ∀ a ∈ as, Decodes P R enc a) (hbs : ∀ b ∈ bs, P b)
    (hlen : as.length = bs.length) {s t : List β}
    (heq : as.flatMap enc ++ s = bs.flatMap enc ++ t) : List.Forall₂ R as bs ∧ s = t := by
  induction as generalizing bs with
  | nil =>
    obtain rfl := List.length_eq_zero_iff.mp hlen.symm
    exact ⟨.nil, heq⟩
  | cons a as ih =>
    cases bs with
    | nil => cases hlen
    | cons b bs =>
      rw [List.flatMap_cons, List.flatMap_cons, List.append_assoc, List.append_assoc] at heq
      obtain ⟨hab, heq⟩ := h a List.mem_cons_self b (hbs b List.mem_cons_self) _ _ heq
      obtain ⟨hrest, hst⟩ := ih (fun a ha => h a (List.mem_cons_of_mem _ ha))
        (fun b hb => hbs b (List.mem_cons_of_mem _ hb)) (Nat.succ.inj hlen) heq
      exact ⟨.cons hab hrest, hst⟩

/-- Items behind their number. -/
theorem counted {count : Nat → List β} {bound : Nat → Prop} {as : List α}
    (hcount : Decodes bound (· = ·) count as.length) (h : ∀ a ∈ as, Decodes P R enc a) :
    Decodes (fun bs : List α => bound bs.length ∧ ∀ b ∈ bs, P b) (List.Forall₂ R)
      (fun as => count as.length ++ as.flatMap enc) as := by
  rintro bs ⟨hbound, hbs⟩ s t heq
  rw [List.append_assoc, List.append_assoc] at heq
  obtain ⟨hlen, heq⟩ := hcount bs.length hbound _ _ heq
  exact flatMap_decodes h hbs hlen heq

theorem flatMap_congr {as bs : List α} (h : List.Forall₂ R as bs)
    (heq : ∀ a ∈ as, ∀ b ∈ bs, R a b → enc a = enc b) : as.flatMap enc = bs.flatMap enc := by
  induction h with
  | nil => rfl
  | cons hab _ ih =>
    rw [List.flatMap_cons, List.flatMap_cons,
      heq _ List.mem_cons_self _ List.mem_cons_self hab,
      ih fun a ha b hb => heq a (List.mem_cons_of_mem _ ha) b (List.mem_cons_of_mem _ hb)]

/-- A concatenation of streams determines their number and what they encode. -/
theorem flatMap_concat {as bs : List α} (h : ∀ a ∈ as, Decodes P R enc a) (hbs : ∀ b ∈ bs, P b)
    (hne : ∀ a, enc a ≠ []) (heq : as.flatMap enc = bs.flatMap enc) : List.Forall₂ R as bs := by
  induction as generalizing bs with
  | nil =>
    cases bs with
    | nil => exact .nil
    | cons b bs => exact absurd (List.append_eq_nil_iff.mp heq.symm).1 (hne b)
  | cons a as ih =>
    cases bs with
    | nil => exact absurd (List.append_eq_nil_iff.mp heq).1 (hne a)
    | cons b bs =>
      obtain ⟨hab, heq⟩ := h a List.mem_cons_self b (hbs b List.mem_cons_self) _ _ heq
      exact .cons hab (ih (fun a ha => h a (List.mem_cons_of_mem _ ha))
        (fun b hb => hbs b (List.mem_cons_of_mem _ hb)) heq)

/-! ## Separators -/

/-- The stream of `a` can be split off before a rest that ends it. -/
def DecodesBefore (Ends : List β → Prop) (P : α → Prop) (enc : α → List β) (a : α) : Prop :=
  ∀ b, P b → ∀ s t, Ends s → Ends t → enc a ++ s = enc b ++ t → a = b ∧ s = t

/-- Items with a separator between them. -/
def separated (separator : β) (enc : α → List β) : List α → List β
  | [] => []
  | [a] => enc a
  | a :: as => enc a ++ separator :: separated separator enc as

/-- What is written behind the first item. -/
theorem separated_cons (separator : β) (enc : α → List β) (a : α) (as : List α) :
    separated separator enc (a :: as) =
      enc a ++ if as = [] then [] else separator :: separated separator enc as := by
  cases as with
  | nil => exact (List.append_nil _).symm
  | cons b as => rfl

/-- A closing symbol that begins no item and is no separator shows where the items stop. -/
theorem separated_decodes {Ends : List β → Prop} {separator close : β} {as bs : List α}
    (hclose : separator ≠ close) (hends : ∀ s, Ends (close :: s)) (hsep : ∀ s, Ends (separator :: s))
    (hbegin : ∀ a, P a → ∃ c rest, enc a = c :: rest ∧ c ≠ close)
    (h : ∀ a ∈ as, DecodesBefore Ends P enc a) (has : ∀ a ∈ as, P a) (hbs : ∀ b ∈ bs, P b)
    {s t : List β} (heq : separated separator enc as ++ close :: s =
      separated separator enc bs ++ close :: t) : as = bs ∧ s = t := by
  have hrest (as : List α) (s : List β) :
      Ends ((if as = [] then [] else separator :: separated separator enc as) ++ close :: s) := by
    split
    · exact hends s
    · exact hsep _
  induction as generalizing bs with
  | nil =>
    cases bs with
    | nil => exact ⟨rfl, (List.cons.inj heq).2⟩
    | cons b bs =>
      obtain ⟨c, rest, hc, hne⟩ := hbegin b (hbs b List.mem_cons_self)
      rw [separated_cons, hc] at heq
      exact absurd (List.cons.inj heq).1.symm hne
  | cons a as ih =>
    cases bs with
    | nil =>
      obtain ⟨c, rest, hc, hne⟩ := hbegin a (has a List.mem_cons_self)
      rw [separated_cons, hc] at heq
      exact absurd (List.cons.inj heq).1 hne
    | cons b bs =>
      rw [separated_cons, separated_cons, List.append_assoc, List.append_assoc] at heq
      obtain ⟨rfl, htail⟩ := h a List.mem_cons_self b (hbs b List.mem_cons_self) _ _ (hrest as s)
        (hrest bs t) heq
      have hstep := @ih bs (fun a ha => h a (List.mem_cons_of_mem _ ha))
        (fun a ha => has a (List.mem_cons_of_mem _ ha))
        (fun b hb => hbs b (List.mem_cons_of_mem _ hb))
      by_cases hnil : as = []
      · by_cases hnil' : bs = []
        · subst hnil hnil'
          exact ⟨rfl, (List.cons.inj htail).2⟩
        · rw [if_pos hnil, if_neg hnil'] at htail
          exact absurd (List.cons.inj htail).1.symm hclose
      · by_cases hnil' : bs = []
        · rw [if_neg hnil, if_pos hnil'] at htail
          exact absurd (List.cons.inj htail).1 hclose
        · rw [if_neg hnil, if_neg hnil'] at htail
          obtain ⟨rfl, hst⟩ := hstep (List.cons.inj htail).2
          exact ⟨rfl, hst⟩

/-! ## Words -/

/-- The low bytes of a number, most significant first. -/
def toBeBytes : Nat → Nat → List UInt8
  | 0, _ => []
  | width + 1, n => UInt8.ofNat (n / 256 ^ width) :: toBeBytes width n

theorem toBeBytes_length (width n : Nat) : (toBeBytes width n).length = width := by
  induction width with
  | zero => rfl
  | succ width ih => rw [toBeBytes, List.length_cons, ih]

theorem toBeBytes_inj {width m n : Nat} (h : toBeBytes width m = toBeBytes width n) :
    m % 256 ^ width = n % 256 ^ width := by
  induction width with
  | zero => rw [Nat.pow_zero, Nat.mod_one, Nat.mod_one]
  | succ width ih =>
    obtain ⟨hbyte, hrest⟩ := List.cons.inj h
    have hmod := congrArg UInt8.toNat hbyte
    rw [UInt8.toNat_ofNat', UInt8.toNat_ofNat'] at hmod
    rw [Nat.mod_pow_succ, Nat.mod_pow_succ, ih hrest, hmod]

theorem toBeBytes_decodes {width n : Nat} (hn : n < 256 ^ width) :
    Decodes (· < 256 ^ width) (· = ·) (toBeBytes width) n := by
  refine .of_length (fun m _ => ?_) (fun m hm heq => ?_)
  · rw [toBeBytes_length, toBeBytes_length]
  · have hmod := toBeBytes_inj heq
    rwa [Nat.mod_eq_of_lt hn, Nat.mod_eq_of_lt hm] at hmod

end SelfDelimiting
