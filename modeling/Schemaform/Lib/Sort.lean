import Mathlib.Data.List.Destutter
import Mathlib.Data.List.Sort
import Mathlib.Order.Compare

/-!
# Lib.Sort

Lists in the order of a three-way comparison.

* Instances that let the sorting lemmas of the library apply to `isLE`.
* `pairwise_isLT_destutter`: a sorted list without adjacent repetitions is strictly sorted.
* `mem_destutter`, `eq_of_pairwise_isLT`: it is determined by its items.
-/

open Std

variable {α : Type} {cmp : α → α → Ordering} [TransCmp cmp]

instance isLE_total : Std.Total fun a b => (cmp a b).isLE = true := by
  refine ⟨fun a b => ?_⟩
  rw [@OrientedCmp.eq_swap α cmp _ b a]
  cases cmp a b <;> simp

instance isLE_trans : IsTrans α fun a b => (cmp a b).isLE = true := ⟨fun _ _ _ => TransCmp.isLE_trans⟩

theorem isLT_trans {a b c : α} (h : (cmp a b).isLT = true) (h' : (cmp b c).isLT = true) :
    (cmp a c).isLT = true := by
  simp only [Ordering.isLT_iff_eq_lt] at *
  exact TransCmp.lt_trans h h'

/-- Items that compare equal are adjacent in order, so none of them stands twice. -/
theorem pairwise_isLT_destutter [DecidableEq α] {l : List α}
    (heq : ∀ a ∈ l, ∀ b ∈ l, cmp a b = .eq → a = b)
    (h : l.Pairwise fun a b => (cmp a b).isLE = true) :
    (l.destutter (· ≠ ·)).Pairwise fun a b => (cmp a b).isLT = true := by
  have hmem := (List.destutter_sublist (· ≠ ·) l).subset
  have hsub := h.sublist (List.destutter_sublist (· ≠ ·) l)
  have hchain := List.isChain_destutter (· ≠ ·) l
  generalize l.destutter (· ≠ ·) = m at hmem hsub hchain
  have htrans : IsTrans α fun a b => (cmp a b).isLT = true := ⟨fun _ _ _ => isLT_trans⟩
  refine List.isChain_iff_pairwise.mp ?_
  induction hchain with
  | nil => exact .nil
  | singleton a => exact .singleton a
  | @cons_cons a b m hne _ ih =>
    rw [List.pairwise_cons] at hsub
    refine .cons_cons ?_ (ih (fun c hc => hmem (List.mem_cons_of_mem _ hc)) hsub.2)
    have hle := hsub.1 b List.mem_cons_self
    cases hc : cmp a b with
    | lt => rfl
    | eq =>
      have hb := hmem (List.mem_cons_of_mem _ List.mem_cons_self)
      exact absurd (heq a (hmem List.mem_cons_self) b hb hc) hne
    | gt => rw [hc] at hle; cases hle

theorem mem_destutter' {R : α → α → Prop} [DecidableRel R] (hR : ∀ a b, ¬ R a b → a = b) {a b : α}
    {l : List α} : a ∈ l.destutter' R b ↔ a ∈ b :: l := by
  induction l generalizing b with
  | nil => exact Iff.rfl
  | cons c l ih =>
    by_cases h : R b c
    · rw [List.destutter'_cons_pos l h, List.mem_cons, ih, ← List.mem_cons]
    · obtain rfl := hR b c h
      rw [List.destutter'_cons_neg l h, ih]
      simp

/-- Only repetitions are dropped. -/
theorem mem_destutter [DecidableEq α] {a : α} {l : List α} :
    a ∈ l.destutter (· ≠ ·) ↔ a ∈ l := by
  cases l with
  | nil => exact Iff.rfl
  | cons b l =>
    rw [List.destutter_cons']
    exact mem_destutter' fun _ _ => not_not.mp

/-- Lists of the same items in strict order are one list. -/
theorem eq_of_pairwise_isLT {l m : List α} (hl : l.Pairwise fun a b => (cmp a b).isLT = true)
    (hm : m.Pairwise fun a b => (cmp a b).isLT = true) (h : ∀ a, a ∈ l ↔ a ∈ m) : l = m := by
  have hself (a : α) : ¬ (cmp a a).isLT = true := by
    have hcmp : cmp a a = .eq := ReflCmp.compare_self
    simp [hcmp]
  have hirrefl : Std.Irrefl fun a b => (cmp a b).isLT = true := ⟨hself⟩
  have hantisymm : Std.Antisymm fun a b => (cmp a b).isLT = true :=
    ⟨fun a _ hab hba => absurd (isLT_trans hab hba) (hself a)⟩
  exact hl.eq_of_mem_iff hm h
