import Schemaform.Lib.Forest

/-!
# Lib.Marking

Depth-first marking with a set of marks, over any finite `children` function.

* `mark`: mark a node and everything below it that is not marked yet.
* `Marks`: what marking from some nodes does to the marks.
* `marks_mark`, `marks_foldl`: as many levels as there are unmarked nodes are enough.
-/

namespace Forest

universe u

variable {α : Type u} {children : α → List α}

def mark [DecidableEq α] (children : α → List α) : Nat → α → List α → List α
  | 0, _, marked => marked
  | levels + 1, x, marked =>
    if x ∈ marked then marked
    else (children x).foldl (fun marked c => mark children levels c marked) (x :: marked)

structure Marks (children : α → List α) (bound starts before after : List α) : Prop where
  kept : ∀ x ∈ before, x ∈ after
  started : ∀ x ∈ starts, x ∈ after
  reached : ∀ x ∈ after, x ∈ before ∨ ∃ s ∈ starts, Reaches children s x
  closed : ∀ x ∈ after, x ∉ before → ∀ c ∈ children x, c ∈ after
  nodup : after.Nodup
  bounded : ∀ x ∈ after, x ∈ bound

namespace Marks

variable {bound starts before after after' : List α} {x : α}

theorem refl (hnodup : before.Nodup) (hbound : ∀ y ∈ before, y ∈ bound)
    (hstarts : ∀ y ∈ starts, y ∈ before) : Marks children bound starts before before where
  kept _ hy := hy
  started := hstarts
  reached _ hy := .inl hy
  closed _ hy hn := absurd hy hn
  nodup := hnodup
  bounded := hbound

theorem length_le (h : Marks children bound starts before after) (hnodup : before.Nodup) :
    before.length ≤ after.length :=
  (hnodup.subperm h.kept).length_le

theorem trans (h : Marks children bound [x] before after)
    (h' : Marks children bound starts after after') :
    Marks children bound (x :: starts) before after' where
  kept y hy := h'.kept y (h.kept y hy)
  started y hy := by
    rcases List.mem_cons.mp hy with rfl | hy
    · exact h'.kept y (h.started y (List.mem_singleton_self y))
    · exact h'.started y hy
  reached y hy := by
    rcases h'.reached y hy with hy | ⟨s, hs, hr⟩
    · refine (h.reached y hy).imp_right ?_
      rintro ⟨s, hs, hr⟩
      obtain rfl := List.mem_singleton.mp hs
      exact ⟨s, List.mem_cons_self, hr⟩
    · exact .inr ⟨s, List.mem_cons_of_mem _ hs, hr⟩
  closed y hy hn c hc := by
    by_cases hmid : y ∈ after
    · exact h'.kept c (h.closed y hmid hn c hc)
    · exact h'.closed y hy hmid c hc
  nodup := h'.nodup
  bounded := h'.bounded

/-- Marking a node is marking its children with the node marked already. -/
theorem node (h : Marks children bound (children x) (x :: before) after) :
    Marks children bound [x] before after where
  kept y hy := h.kept y (List.mem_cons_of_mem _ hy)
  started y hy := by
    obtain rfl := List.mem_singleton.mp hy
    exact h.kept y List.mem_cons_self
  reached y hy := by
    rcases h.reached y hy with hy | ⟨s, hs, hr⟩
    · rcases List.mem_cons.mp hy with rfl | hy
      · exact .inr ⟨y, List.mem_singleton_self y, .refl⟩
      · exact .inl hy
    · exact .inr ⟨x, List.mem_singleton_self x, .head hs hr⟩
  closed y hy hn c hc := by
    by_cases hx : y = x
    · subst hx
      exact h.started c hc
    · exact h.closed y hy (by simp [hx, hn]) c hc
  nodup := h.nodup
  bounded := h.bounded

end Marks

theorem marks_foldl {bound starts before : List α} {step : List α → α → List α} {levels : Nat}
    (hstep : ∀ x ∈ bound, ∀ before : List α, before.Nodup → (∀ y ∈ before, y ∈ bound) →
      bound.length ≤ levels + before.length → Marks children bound [x] before (step before x))
    (hstarts : ∀ x ∈ starts, x ∈ bound) (hnodup : before.Nodup)
    (hbound : ∀ y ∈ before, y ∈ bound) (hlevels : bound.length ≤ levels + before.length) :
    Marks children bound starts before (starts.foldl step before) := by
  induction starts generalizing before with
  | nil => exact .refl hnodup hbound (by simp)
  | cons x starts ih =>
    have hx := hstep x (hstarts x List.mem_cons_self) before hnodup hbound hlevels
    have hlen := hx.length_le hnodup
    exact hx.trans (ih (fun y hy => hstarts y (List.mem_cons_of_mem _ hy)) hx.nodup hx.bounded
      (by omega))

/-- Induction on the levels: every level marks one more node of the bound. -/
theorem marks_mark [DecidableEq α] {bound : List α}
    (hclosed : ∀ x ∈ bound, ∀ c ∈ children x, c ∈ bound)
    (levels : Nat) : ∀ x ∈ bound, ∀ before : List α, before.Nodup → (∀ y ∈ before, y ∈ bound) →
      bound.length ≤ levels + before.length →
      Marks children bound [x] before (mark children levels x before) := by
  induction levels with
  | zero =>
    intro x hx before hnodup hbound hlevels
    -- everything is marked already
    have hall : before.Perm bound :=
      (hnodup.subperm hbound).perm_of_length_le (by omega)
    refine .refl hnodup hbound ?_
    intro y hy
    obtain rfl := List.mem_singleton.mp hy
    exact hall.mem_iff.mpr hx
  | succ levels ih =>
    intro x hx before hnodup hbound hlevels
    rw [mark]
    split
    · rename_i hmarked
      refine .refl hnodup hbound ?_
      intro y hy
      obtain rfl := List.mem_singleton.mp hy
      exact hmarked
    · rename_i hmarked
      refine Marks.node (marks_foldl ih (hclosed x hx) ?_ ?_ ?_)
      · exact List.nodup_cons.mpr ⟨hmarked, hnodup⟩
      · intro y hy
        rcases List.mem_cons.mp hy with rfl | hy
        · exact hx
        · exact hbound y hy
      · rw [List.length_cons]
        omega

end Forest
