import Mathlib.Data.List.Nodup
import Mathlib.Data.List.Perm.Subperm
import Mathlib.Logic.Relation
import Mathlib.Order.Nat

/-!
# Lib.Forest

Depth-first traversal with an explicit stack, over a `children` function that descends in a rank.

* `dfs`: the stack loop, `preorder`: the recursion it implements.
* `dfs_eq`: enough fuel for the nodes below the stack is enough fuel.
* `mem_preorder`: the traversal finds exactly what is reachable.
* `nodup_preorder`: with one parent to a node, nothing is found twice.
* `Numbered`: nodes numbered from the root down, each below an earlier one.
-/

namespace Forest

universe u

variable {α : Type u}

/-- Pop a node, push its children in its place. -/
def dfs (children : α → List α) : Nat → List α → List α
  | 0, _ => []
  | _ + 1, [] => []
  | fuel + 1, x :: pending => x :: dfs children fuel (children x ++ pending)

def preorder (children : α → List α) : Nat → α → List α
  | 0, _ => []
  | depth + 1, x => x :: (children x).flatMap (preorder children depth)

/-- Children rank below their parent. -/
def Ranked (children : α → List α) (rank : α → Nat) : Prop :=
  ∀ x, ∀ c ∈ children x, rank c < rank x

/-- No node is listed twice, by one parent or by two. -/
structure UniqueParent (children : α → List α) : Prop where
  nodup : ∀ x, (children x).Nodup
  parent : ∀ x y c, c ∈ children x → c ∈ children y → x = y

abbrev Reaches (children : α → List α) : α → α → Prop :=
  Relation.ReflTransGen fun x c => c ∈ children x

variable {children : α → List α} {rank : α → Nat}

theorem preorder_stable (h : Ranked children rank) {n m : Nat} {x : α} (hn : rank x < n)
    (hm : rank x < m) : preorder children n x = preorder children m x := by
  induction n generalizing m x with
  | zero => omega
  | succ n ih =>
    cases m with
    | zero => omega
    | succ m =>
      simp only [preorder]
      congr 1
      refine List.flatMap_congr fun c hc => ?_
      have := h x c hc
      exact ih (by omega) (by omega)

theorem preorder_succ (h : Ranked children rank) {n : Nat} {x : α} (hn : rank x < n) :
    preorder children n x = x :: (children x).flatMap (preorder children n) := by
  have hstep := preorder_stable h hn (Nat.lt_succ_of_lt hn)
  rw [hstep, preorder]

theorem dfs_eq (h : Ranked children rank) {depth fuel : Nat} {pending : List α}
    (hrank : ∀ x ∈ pending, rank x < depth)
    (hfuel : (pending.flatMap (preorder children depth)).length ≤ fuel) :
    dfs children fuel pending = pending.flatMap (preorder children depth) := by
  induction fuel generalizing pending with
  | zero =>
    rw [List.eq_nil_of_length_eq_zero (Nat.le_zero.mp hfuel)]
    rfl
  | succ fuel ih =>
    cases pending with
    | nil => rfl
    | cons x pending =>
      have hx := hrank x List.mem_cons_self
      rw [List.flatMap_cons, preorder_succ h hx, List.cons_append, ← List.flatMap_append] at hfuel ⊢
      rw [dfs, ih]
      · intro y hy
        rcases List.mem_append.mp hy with hy | hy
        · exact (h x y hy).trans hx
        · exact hrank y (List.mem_cons_of_mem _ hy)
      · simpa using hfuel

theorem mem_preorder (h : Ranked children rank) {n : Nat} {x y : α} (hn : rank x < n) :
    y ∈ preorder children n x ↔ Reaches children x y := by
  induction n generalizing x with
  | zero => omega
  | succ n ih =>
    rw [preorder, List.mem_cons, List.mem_flatMap]
    constructor
    · rintro (rfl | ⟨c, hc, hy⟩)
      · exact .refl
      · have := h x c hc
        exact .head hc ((ih (by omega)).mp hy)
    · intro hr
      rcases Relation.ReflTransGen.cases_head hr with rfl | ⟨c, hc, hr⟩
      · exact .inl rfl
      · have := h x c hc
        exact .inr ⟨c, hc, (ih (by omega)).mpr hr⟩

theorem Reaches.rank_le (h : Ranked children rank) {x y : α} (hr : Reaches children x y) :
    rank y ≤ rank x := by
  induction hr with
  | refl => exact le_rfl
  | tail _ hc ih => exact (h _ _ hc).le.trans ih

/-- The ancestors of a node form a chain. -/
theorem Reaches.linear (hu : UniqueParent children) {x y z : α} (hx : Reaches children x z)
    (hy : Reaches children y z) : Reaches children x y ∨ Reaches children y x := by
  induction hx with
  | refl => exact .inr hy
  | @tail w z hxw hwz ih =>
    rcases Relation.ReflTransGen.cases_tail hy with rfl | ⟨w', hyw, hw⟩
    · exact .inl (hxw.tail hwz)
    · rw [hu.parent w' w z hw hwz] at hyw
      exact ih hyw

/-- What lies below two children of one node lies below one child. -/
theorem child_unique (h : Ranked children rank) (hu : UniqueParent children) {x c d y : α}
    (hc : c ∈ children x) (hd : d ∈ children x) (hcy : Reaches children c y)
    (hdy : Reaches children d y) : c = d := by
  have key {c d : α} (hc : c ∈ children x) (hd : d ∈ children x) (hr : Reaches children c d) :
      c = d := by
    rcases Relation.ReflTransGen.cases_tail hr with rfl | ⟨w, hcw, hw⟩
    · rfl
    · rw [hu.parent w x d hw hd] at hcw
      exact absurd ((h x c hc).trans_le (Reaches.rank_le h hcw)) (Nat.lt_irrefl _)
  rcases Reaches.linear hu hcy hdy with hr | hr
  · exact key hc hd hr
  · exact (key hd hc hr).symm

theorem nodup_preorder (h : Ranked children rank) (hu : UniqueParent children) {n : Nat} {x : α}
    (hn : rank x < n) : (preorder children n x).Nodup := by
  induction n generalizing x with
  | zero => omega
  | succ n ih =>
    have hlt (c : α) (hc : c ∈ children x) : rank c < n := by
      have := h x c hc
      omega
    rw [preorder, List.nodup_cons, List.mem_flatMap]
    refine ⟨?_, List.nodup_flatMap.mpr ⟨fun c hc => ih (hlt c hc), ?_⟩⟩
    · rintro ⟨c, hc, hx⟩
      have := Reaches.rank_le h ((mem_preorder h (hlt c hc)).mp hx)
      exact absurd (h x c hc) (Nat.not_lt.mpr this)
    · refine List.Pairwise.imp_of_mem ?_ (hu.nodup x)
      intro c d hc hd hcd y hy hy'
      exact hcd (child_unique h hu hc hd ((mem_preorder h (hlt c hc)).mp hy)
        ((mem_preorder h (hlt d hd)).mp hy'))

/-! ## From one root -/

section Root

variable {fuel : Nat} {root : α}

/-- A bound on the reachable nodes is enough fuel. -/
theorem dfs_root (h : Ranked children rank) (hu : UniqueParent children) {bound : List α}
    (hbound : ∀ y, Reaches children root y → y ∈ bound) (hfuel : bound.length ≤ fuel) :
    dfs children fuel [root] = preorder children (rank root + 1) root := by
  have hlt : rank root < rank root + 1 := Nat.lt_succ_self _
  have hlen : (preorder children (rank root + 1) root).length ≤ bound.length :=
    (List.Nodup.subperm (nodup_preorder h hu hlt)
      fun y hy => hbound y ((mem_preorder h hlt).mp hy)).length_le
  have heq : dfs children fuel [root] = [root].flatMap (preorder children (rank root + 1)) :=
    dfs_eq h (by simp) (by simpa using hlen.trans hfuel)
  simpa using heq

end Root

/-! ## Numbered trees -/

/-- The numbers below `count`, every one but zero a child of a smaller one. -/
structure Numbered (children : Nat → List Nat) (count : Nat) : Prop where
  child : ∀ x, ∀ c ∈ children x, x < c ∧ c < count
  parent : ∀ c, c < count → c = 0 ∨ ∃ x, c ∈ children x

namespace Numbered

variable {children : Nat → List Nat} {count : Nat}

theorem ranked (h : Numbered children count) : Ranked children (count - ·) := by
  intro x c hc
  obtain ⟨hlt, hcount⟩ := h.child x c hc
  exact Nat.sub_lt_sub_left (hlt.trans hcount) hlt

theorem reaches (h : Numbered children count) (i : Nat) (hi : i < count) :
    Reaches children 0 i := by
  induction i using Nat.strongRecOn with
  | _ i ih =>
    rcases h.parent i hi with rfl | ⟨x, hx⟩
    · exact .refl
    · have hlt := (h.child x i hx).1
      exact .tail (ih x hlt (by omega)) hx

end Numbered

end Forest
