import Schemaform.Lib.Sort
import Mathlib.Data.List.Dedup
import Mathlib.Data.List.Perm.Subperm

/-!
# Lib.Smallest

Keeping the smallest distinct items of a stream.

* `Smallest`: what is kept of what has been seen.
* `known`, `room`, `refused`, `replaced`: what one more item does.
* `sorted_eq`: in order, the kept items are the first ones of the distinct items in order.
-/

open Std

variable {α : Type} {cmp : α → α → Ordering} {maximum : Nat} {seen kept : List α} {a current : α}

/-- What is kept is smaller than what is not, and only a full list leaves anything out. -/
structure Smallest (cmp : α → α → Ordering) (maximum : Nat) (seen kept : List α) : Prop where
  nodup : kept.Nodup
  subset : kept ⊆ seen
  bounded : kept.length ≤ maximum
  left_out : ∀ a ∈ seen, a ∉ kept → kept.length = maximum ∧ ∀ b ∈ kept, cmp b a = .lt

namespace Smallest

theorem nil (cmp : α → α → Ordering) (maximum : Nat) : Smallest cmp maximum [] [] where
  nodup := .nil
  subset := fun _ h => h
  bounded := Nat.zero_le _
  left_out := fun _ h => absurd h List.not_mem_nil

theorem subset_snoc (h : kept ⊆ seen) : kept ⊆ seen ++ [a] :=
  fun _ hb => List.mem_append_left _ (h hb)

/-- An item that is kept already. -/
theorem known (h : Smallest cmp maximum seen kept) (ha : a ∈ kept) :
    Smallest cmp maximum (seen ++ [a]) kept := by
  refine ⟨h.nodup, subset_snoc h.subset, h.bounded, fun b hb hnot => ?_⟩
  rcases List.mem_append.mp hb with hb | hb
  · exact h.left_out b hb hnot
  · obtain rfl := List.mem_singleton.mp hb
    exact absurd ha hnot

theorem seen_kept (h : Smallest cmp maximum seen kept) (hroom : kept.length < maximum) :
    ∀ b ∈ seen, b ∈ kept := by
  intro b hb
  by_contra hnot
  have hfull := (h.left_out b hb hnot).1
  omega

theorem room (h : Smallest cmp maximum seen kept) (ha : a ∉ kept)
    (hroom : kept.length < maximum) : Smallest cmp maximum (seen ++ [a]) (kept ++ [a]) := by
  refine ⟨?_, fun b hb => ?_, ?_, fun b hb hnot => ?_⟩
  · rw [List.nodup_append]
    refine ⟨h.nodup, List.nodup_singleton a, fun b hb c hc => ?_⟩
    obtain rfl := List.mem_singleton.mp hc
    rintro rfl
    exact ha hb
  · rcases List.mem_append.mp hb with hb | hb
    · exact List.mem_append_left _ (h.subset hb)
    · exact List.mem_append_right _ hb
  · rw [List.length_append, List.length_singleton]
    omega
  · exfalso
    rcases List.mem_append.mp hb with hb | hb
    · exact hnot (List.mem_append_left _ (h.seen_kept hroom b hb))
    · exact hnot (List.mem_append_right _ hb)

/-- An item above everything in a full list. -/
theorem refused (h : Smallest cmp maximum seen kept) (hfull : maximum ≤ kept.length)
    (habove : ∀ b ∈ kept, cmp b a = .lt) : Smallest cmp maximum (seen ++ [a]) kept := by
  refine ⟨h.nodup, subset_snoc h.subset, h.bounded, fun b hb hnot => ?_⟩
  rcases List.mem_append.mp hb with hb | hb
  · exact h.left_out b hb hnot
  · obtain rfl := List.mem_singleton.mp hb
    exact ⟨Nat.le_antisymm h.bounded hfull, habove⟩

theorem lt_of_isLE_of_ne [TransCmp cmp] {b : α} (hle : (cmp b current).isLE = true)
    (hne : cmp b current = .eq → b = current) (h : b ≠ current) : cmp b current = .lt := by
  cases hc : cmp b current with
  | lt => rfl
  | eq => exact absurd (hne hc) h
  | gt =>
    rw [hc] at hle
    cases hle

/-- An item below the largest one of a full list takes its place. -/
theorem replaced [TransCmp cmp] (h : Smallest cmp maximum seen kept)
    (heq : ∀ b ∈ kept, cmp b current = .eq → b = current) (ha : a ∉ kept)
    (hfull : maximum ≤ kept.length) {i : Nat} (hi : kept[i]? = some current)
    (hlargest : ∀ b ∈ kept, (cmp b current).isLE = true) (hlt : cmp a current = .lt) :
    Smallest cmp maximum (seen ++ [a]) (kept.set i a) := by
  obtain ⟨hlen, hat⟩ := List.getElem?_eq_some_iff.mp hi
  have hmem {b : α} (hb : b ∈ kept.set i a) : b = a ∨ b ∈ kept ∧ b ≠ current := by
    obtain ⟨j, hj⟩ := List.mem_iff_getElem?.mp hb
    by_cases hij : i = j
    · subst hij
      rw [List.getElem?_set_self hlen] at hj
      exact .inl (Option.some.inj hj).symm
    · rw [List.getElem?_set_ne hij] at hj
      obtain ⟨hjlen, hjat⟩ := List.getElem?_eq_some_iff.mp hj
      refine .inr ⟨List.mem_of_getElem? hj, fun hsame => hij ?_⟩
      rw [← hjat, ← hat] at hsame
      exact ((List.Nodup.getElem_inj_iff h.nodup).mp hsame).symm
  have hstays {b : α} (hb : b ∈ kept) (hne : b ≠ current) : b ∈ kept.set i a := by
    obtain ⟨j, hj⟩ := List.mem_iff_getElem?.mp hb
    refine List.mem_of_getElem? ((List.getElem?_set_ne ?_).trans hj)
    rintro rfl
    exact hne (Option.some.inj (hj.symm.trans hi))
  refine ⟨h.nodup.set ha, fun b hb => ?_, ?_, fun b hb hnot => ?_⟩
  · rcases hmem hb with rfl | ⟨hb, _⟩
    · exact List.mem_append_right _ List.mem_cons_self
    · exact List.mem_append_left _ (h.subset hb)
  · rw [List.length_set]
    exact h.bounded
  · rw [List.length_set]
    refine ⟨Nat.le_antisymm h.bounded hfull, fun c hc => ?_⟩
    have hb : b ∈ seen := by
      rcases List.mem_append.mp hb with hb | hb
      · exact hb
      · obtain rfl := List.mem_singleton.mp hb
        exact absurd (List.mem_set hlen b) hnot
    by_cases hbk : b ∈ kept
    · -- the item that had to go
      have hbc : b = current := by
        by_contra hne
        exact hnot (hstays hbk hne)
      rw [hbc]
      rcases hmem hc with rfl | ⟨hck, hne⟩
      · exact hlt
      · exact lt_of_isLE_of_ne (hlargest c hck) (heq c hck) hne
    · have hbelow := (h.left_out b hb hbk).2
      rcases hmem hc with rfl | ⟨hck, _⟩
      · exact TransCmp.lt_trans hlt (hbelow current (List.mem_of_getElem? hi))
      · exact hbelow c hck

/-! ## In order -/

variable [DecidableEq α]

/-- Something is left out when there are more distinct items than may be kept. -/
theorem overflow_iff (h : Smallest cmp maximum seen kept) :
    maximum < seen.dedup.length ↔ ∃ a ∈ seen, a ∉ kept := by
  have hsub : kept ⊆ seen.dedup := fun a ha => List.mem_dedup.mpr (h.subset ha)
  constructor
  · intro hlt
    by_contra hall
    have hsub' : seen.dedup ⊆ kept := by
      intro a ha
      by_contra hnot
      exact hall ⟨a, List.mem_dedup.mp ha, hnot⟩
    have hle := (List.subperm_of_subset (List.nodup_dedup seen) hsub').length_le
    have hbounded := h.bounded
    omega
  · rintro ⟨a, ha, hnot⟩
    have hfull := (h.left_out a ha hnot).1
    have hcons : (a :: kept).Nodup := List.nodup_cons.mpr ⟨hnot, h.nodup⟩
    have hle := (List.subperm_of_subset hcons (List.cons_subset.mpr
      ⟨List.mem_dedup.mpr ha, hsub⟩)).length_le
    rw [List.length_cons] at hle
    omega

theorem sorted_eq [TransCmp cmp] (h : Smallest cmp maximum seen kept)
    (heq : ∀ a ∈ seen, ∀ b ∈ seen, cmp a b = .eq → a = b) :
    kept.insertionSort (fun a b => (cmp a b).isLE) =
      (seen.dedup.insertionSort fun a b => (cmp a b).isLE).take maximum := by
  have hsub : kept ⊆ seen.dedup := fun a ha => List.mem_dedup.mpr (h.subset ha)
  obtain ⟨kept', hperm, hsublist⟩ := List.subperm_of_subset h.nodup hsub
  obtain ⟨rest, hsplit⟩ := hsublist.exists_perm_append
  have hrest : seen.dedup.Perm (kept ++ rest) := hsplit.trans (hperm.append_right rest)
  have hleft (a : α) (ha : a ∈ rest) : a ∈ seen ∧ a ∉ kept := by
    refine ⟨List.mem_dedup.mp (hrest.mem_iff.mpr (List.mem_append_right _ ha)), fun hk => ?_⟩
    have hnodup := hrest.nodup_iff.mp (List.nodup_dedup seen)
    exact (List.nodup_append.mp hnodup).2.2 a hk a ha rfl
  have hsorted : (seen.dedup.insertionSort fun a b => (cmp a b).isLE) =
      kept.insertionSort (fun a b => (cmp a b).isLE) ++
        rest.insertionSort (fun a b => (cmp a b).isLE) := by
    refine List.Perm.eq_of_pairwise (fun a b ha hb hab hba => ?_)
      (List.pairwise_insertionSort _ _) ?_ ?_
    · have hmem : a ∈ seen :=
        List.mem_dedup.mp ((List.perm_insertionSort _ _).mem_iff.mp ha)
      have hmem' : b ∈ seen := by
        rcases List.mem_append.mp hb with hb | hb
        · exact h.subset ((List.perm_insertionSort _ _).mem_iff.mp hb)
        · exact (hleft b ((List.perm_insertionSort _ _).mem_iff.mp hb)).1
      exact heq a hmem b hmem' (OrientedCmp.isLE_antisymm hab hba)
    · rw [List.pairwise_append]
      refine ⟨List.pairwise_insertionSort _ _, List.pairwise_insertionSort _ _, ?_⟩
      intro a ha b hb
      obtain ⟨hseen, hnot⟩ := hleft b ((List.perm_insertionSort _ _).mem_iff.mp hb)
      rw [(h.left_out b hseen hnot).2 a ((List.perm_insertionSort _ _).mem_iff.mp ha)]
      rfl
    · exact ((List.perm_insertionSort _ _).trans hrest).trans
        ((List.perm_insertionSort _ _).symm.append (List.perm_insertionSort _ _).symm)
  rw [hsorted]
  cases rest with
  | nil =>
    rw [List.insertionSort_nil, List.append_nil, List.take_of_length_le]
    rw [(List.perm_insertionSort _ _).length_eq]
    exact h.bounded
  | cons a rest =>
    obtain ⟨hseen, hnot⟩ := hleft a List.mem_cons_self
    have hfull := (h.left_out a hseen hnot).1
    rw [List.take_left']
    rw [(List.perm_insertionSort _ _).length_eq, hfull]

end Smallest
