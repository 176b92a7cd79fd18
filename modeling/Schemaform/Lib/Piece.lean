import Schemaform.Lib.Forest
import Mathlib.Data.List.Range
import Mathlib.Data.Finset.Lattice.Fold

/-!
# Lib.Piece

Forests given by child lists over consecutive numbers, built up piece by piece.

* `Piece`: numbers from `base` on, each a root or the child of exactly one other.
* `Piece.append`, `Piece.push`, `Piece.above`: two pieces side by side, a root pushed after its
  children, a root numbered before them.
* `Piece.of_selection`: the piece a selection of nodes of another forest becomes.
* `Piece.ranked`, `uniqueParent`, `reaches`: a piece from zero with root zero is one tree.
-/

namespace Forest

/-- The child lists `cells` of the numbers from `base` on. -/
structure Piece (base : Nat) (cells : List (List Nat)) (roots : List Nat) : Prop where
  cover : (roots ++ cells.flatten).Perm (List.range' base cells.length)
  ranked : ∃ rank : Nat → Nat, ∀ (k : Nat) (cell : List Nat), cells[k]? = some cell →
    ∀ c ∈ cell, rank c < rank (base + k)

theorem exists_rank_bound (rank : Nat → Nat) (l : List Nat) : ∃ bound, ∀ x ∈ l, rank x ≤ bound :=
  ⟨l.toFinset.sup rank, fun _ hx => Finset.le_sup (List.mem_toFinset.mpr hx)⟩

namespace Piece

variable {base : Nat} {cells cells' : List (List Nat)} {roots roots' : List Nat}

theorem nil : Piece base [] [] := ⟨.refl _, fun _ => 0, by simp⟩

theorem root_mem (h : Piece base cells roots) {r : Nat} (hr : r ∈ roots) :
    base ≤ r ∧ r < base + cells.length := by
  have := h.cover.mem_iff.mp (List.mem_append_left _ hr)
  simpa using this

theorem cell_mem (h : Piece base cells roots) {k : Nat} {cell : List Nat}
    (hk : cells[k]? = some cell) {c : Nat} (hc : c ∈ cell) :
    base ≤ c ∧ c < base + cells.length := by
  have hflat : c ∈ cells.flatten := List.mem_flatten.mpr ⟨cell, List.mem_of_getElem? hk, hc⟩
  have := h.cover.mem_iff.mp (List.mem_append_right _ hflat)
  simpa using this

theorem append (h : Piece base cells roots) (h' : Piece (base + cells.length) cells' roots') :
    Piece base (cells ++ cells') (roots ++ roots') where
  cover := by
    have hperm := h.cover.append h'.cover
    rw [List.range'_append_1, ← List.length_append] at hperm
    refine List.Perm.trans ?_ hperm
    rw [List.flatten_append, List.perm_iff_count]
    intro x
    simp only [List.count_append]
    omega
  ranked := by
    obtain ⟨rank, hrank⟩ := h.ranked
    obtain ⟨rank', hrank'⟩ := h'.ranked
    refine ⟨fun x => if x < base + cells.length then rank x else rank' x, ?_⟩
    intro k cell hk c hc
    by_cases hlt : k < cells.length
    · rw [List.getElem?_append_left hlt] at hk
      have hmem := h.cell_mem hk hc
      have hpos : base + k < base + cells.length := by omega
      simp only [if_pos hmem.2, if_pos hpos]
      exact hrank k cell hk c hc
    · rw [List.getElem?_append_right (by omega)] at hk
      have hmem := h'.cell_mem hk hc
      have hneg : ¬ c < base + cells.length := by omega
      have hneg' : ¬ base + k < base + cells.length := by omega
      simp only [if_neg hneg, if_neg hneg']
      have := hrank' _ cell hk c hc
      rwa [show base + cells.length + (k - cells.length) = base + k by omega] at this

/-- A root after everything below it. -/
theorem push (h : Piece base cells roots) :
    Piece base (cells ++ [roots]) [base + cells.length] where
  cover := by
    have hperm := h.cover.append_right [base + cells.length]
    rw [List.length_append, List.length_singleton, ← List.range'_append_1]
    refine List.Perm.trans ?_ hperm
    rw [List.flatten_append, List.perm_iff_count]
    intro x
    simp only [List.count_append, List.flatten_cons, List.flatten_nil, List.append_nil]
    omega
  ranked := by
    obtain ⟨rank, hrank⟩ := h.ranked
    obtain ⟨bound, hbound⟩ := exists_rank_bound rank roots
    refine ⟨fun x => if x = base + cells.length then bound + 1 else rank x, ?_⟩
    intro k cell hk c hc
    by_cases hlt : k < cells.length
    · rw [List.getElem?_append_left hlt] at hk
      have hmem := h.cell_mem hk hc
      have hne : c ≠ base + cells.length := by omega
      have hne' : base + k ≠ base + cells.length := by omega
      simp only [if_neg hne, if_neg hne']
      exact hrank k cell hk c hc
    · rw [List.getElem?_append_right (by omega), List.getElem?_singleton] at hk
      split at hk
      · obtain rfl := Option.some.inj hk
        have hmem := h.root_mem hc
        have hne : c ≠ base + cells.length := by omega
        have heq : base + k = base + cells.length := by omega
        simp only [if_neg hne, if_pos heq]
        have := hbound c hc
        omega
      · cases hk

/-- A root before everything below it. -/
theorem above (h : Piece (base + 1) cells roots) : Piece base (roots :: cells) [base] where
  cover := by
    rw [List.flatten_cons, List.length_cons, List.range'_succ]
    exact h.cover.cons base
  ranked := by
    obtain ⟨rank, hrank⟩ := h.ranked
    obtain ⟨bound, hbound⟩ := exists_rank_bound rank roots
    refine ⟨fun x => if x = base then bound + 1 else rank x, ?_⟩
    intro k cell hk c hc
    cases k with
    | zero =>
      obtain rfl := Option.some.inj hk
      have hmem := h.root_mem hc
      have hne : c ≠ base := by omega
      simp only [if_neg hne, Nat.add_zero, if_true]
      have := hbound c hc
      omega
    | succ k =>
      rw [List.getElem?_cons_succ] at hk
      have hmem := h.cell_mem hk hc
      have hne : c ≠ base := by omega
      have hne' : base + (k + 1) ≠ base := by omega
      simp only [if_neg hne, if_neg hne']
      have := hrank k cell hk c hc
      rwa [show base + 1 + k = base + (k + 1) by omega] at this

/-- Nodes of a forest, numbered in a row: each is a root or below exactly one other. -/
theorem of_selection {selected roots : List Nat} {children : Nat → List Nat}
    {number : Nat → Nat} (rank : Nat → Nat)
    (hnodup : selected.Nodup) (hnumber : selected.map number = List.range' base selected.length)
    (hroots : roots.Nodup) (hrootsMem : ∀ r ∈ roots, r ∈ selected)
    (hchildren : ∀ x ∈ selected, (children x).Nodup ∧ ∀ c ∈ children x, c ∈ selected)
    (hparent : ∀ x ∈ selected, ∀ y ∈ selected, ∀ c, c ∈ children x → c ∈ children y → x = y)
    (hapart : ∀ r ∈ roots, ∀ x ∈ selected, r ∉ children x)
    (hcover : ∀ x ∈ selected, x ∈ roots ∨ ∃ p ∈ selected, x ∈ children p)
    (hrank : ∀ x ∈ selected, ∀ c ∈ children x, rank c < rank x) :
    Piece base (selected.map fun x => (children x).map number) (roots.map number) where
  cover := by
    rw [List.length_map, ← hnumber]
    have hflat : (selected.map fun x => (children x).map number).flatten =
        (selected.flatMap children).map number := by
      rw [List.map_flatMap, List.flatMap_def]
    rw [hflat, ← List.map_append]
    refine List.Perm.map _ ((List.perm_ext_iff_of_nodup ?_ hnodup).mpr ?_)
    · refine List.nodup_append.mpr ⟨hroots, List.nodup_flatMap.mpr ⟨?_, ?_⟩, ?_⟩
      · exact fun x hx => (hchildren x hx).1
      · refine List.Pairwise.imp_of_mem ?_ hnodup
        intro x y hx hy hne c hcx hcy
        exact hne (hparent x hx y hy c hcx hcy)
      · intro r hr c hc heq
        subst heq
        obtain ⟨x, hx, hrx⟩ := List.mem_flatMap.mp hc
        exact hapart r hr x hx hrx
    · intro x
      rw [List.mem_append, List.mem_flatMap]
      constructor
      · rintro (hx | ⟨p, hp, hx⟩)
        · exact hrootsMem x hx
        · exact (hchildren p hp).2 x hx
      · exact hcover x
  ranked := by
    refine ⟨fun n => (selected[n - base]?).elim 0 rank, ?_⟩
    have hget {x : Nat} (hx : x ∈ selected) : ∃ k, number x = base + k ∧ selected[k]? = some x := by
      obtain ⟨k, hk⟩ := List.mem_iff_getElem?.mp hx
      refine ⟨k, ?_, hk⟩
      have hlt := (List.getElem?_eq_some_iff.mp hk).1
      have hmap : (selected.map number)[k]? = some (number x) := by simp [hk]
      rw [hnumber, List.getElem?_range' hlt] at hmap
      simpa using (Option.some.inj hmap).symm
    intro k cell hk c hc
    rw [List.getElem?_map, Option.map_eq_some_iff] at hk
    obtain ⟨x, hx, rfl⟩ := hk
    obtain ⟨d, hd, rfl⟩ := List.mem_map.mp hc
    have hmem := List.mem_of_getElem? hx
    obtain ⟨j, hj, hdj⟩ := hget ((hchildren x hmem).2 d hd)
    simp only [hj, Nat.add_sub_cancel_left, hdj, hx, Option.elim_some]
    exact hrank x hmem d hd

/-! ## One tree -/

def childrenOf (cells : List (List Nat)) (i : Nat) : List Nat := (cells[i]?).getD []

theorem mem_childrenOf {i c : Nat} (h : c ∈ childrenOf cells i) :
    ∃ cell, cells[i]? = some cell ∧ c ∈ cell := by
  unfold childrenOf at h
  cases hi : cells[i]? with
  | none => simp [hi] at h
  | some cell => exact ⟨cell, rfl, by simpa [hi] using h⟩

variable {root : Nat}

theorem exists_ranked (h : Piece 0 cells roots) : ∃ rank, Ranked (childrenOf cells) rank := by
  obtain ⟨rank, hrank⟩ := h.ranked
  refine ⟨rank, fun i c hc => ?_⟩
  obtain ⟨cell, hi, hc⟩ := mem_childrenOf hc
  simpa using hrank i cell hi c hc

theorem uniqueParent (h : Piece 0 cells roots) : UniqueParent (childrenOf cells) := by
  have hnodup : (roots ++ cells.flatten).Nodup := h.cover.nodup_iff.mpr List.nodup_range'
  have hflat := List.nodup_flatten.mp (List.nodup_append.mp hnodup).2.1
  constructor
  · intro i
    unfold childrenOf
    cases hi : cells[i]? with
    | none => exact List.nodup_nil
    | some cell => exact hflat.1 cell (List.mem_of_getElem? hi)
  · intro i j c hci hcj
    obtain ⟨cell, hi, hci⟩ := mem_childrenOf hci
    obtain ⟨cell', hj, hcj⟩ := mem_childrenOf hcj
    obtain ⟨hilt, rfl⟩ := List.getElem?_eq_some_iff.mp hi
    obtain ⟨hjlt, rfl⟩ := List.getElem?_eq_some_iff.mp hj
    rcases Nat.lt_trichotomy i j with hlt | heq | hlt
    · exact absurd hcj (List.pairwise_iff_getElem.mp hflat.2 i j hilt hjlt hlt hci)
    · exact heq
    · exact absurd hci (List.pairwise_iff_getElem.mp hflat.2 j i hjlt hilt hlt hcj)

/-- Upwards from any number the ranks grow, up to the root. -/
theorem reaches (h : Piece 0 cells [root]) {i : Nat} (hi : i < cells.length) :
    Reaches (childrenOf cells) root i := by
  obtain ⟨rank, hrank⟩ := h.exists_ranked
  obtain ⟨bound, hbound⟩ := exists_rank_bound rank (List.range cells.length)
  induction hn : bound - rank i using Nat.strongRecOn generalizing i with
  | _ n ih =>
    have hmem : i ∈ [root] ++ cells.flatten := h.cover.mem_iff.mpr (by simpa using hi)
    rcases List.mem_append.mp hmem with hr | hc
    · obtain rfl := List.mem_singleton.mp hr
      exact .refl
    · obtain ⟨cell, hcell, hc⟩ := List.mem_flatten.mp hc
      obtain ⟨k, hk⟩ := List.mem_iff_getElem?.mp hcell
      have hklt := (List.getElem?_eq_some_iff.mp hk).1
      have hchild : i ∈ childrenOf cells k := by simpa [childrenOf, hk] using hc
      have hlt := hrank k i hchild
      have hle := hbound k (List.mem_range.mpr hklt)
      exact .tail (ih (bound - rank k) (by omega) hklt rfl) hchild

end Piece

end Forest
