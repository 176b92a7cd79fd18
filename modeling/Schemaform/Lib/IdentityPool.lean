import Mathlib.Data.List.Nodup
import Mathlib.Order.Nat

/-!
# Lib.IdentityPool

Identities handed out from a counter: a current population, a saved population it can be restored
to, and the next identity that was never handed out.

* `IdentityPool`, `IdentityPool.WellFormed`: populations without repetition, below the counter.
* `IdentityPool.Step`: keep some and add fresh ones, restore the saved population, or start over.
* `Step.wellFormed`, `Step.retired`: a well-formed pool stays so, and an identity that has left
  both populations never returns.
* `Rewrites`: a list of populations rewritten from left to right on one counter.
-/

/-- Current and saved identities, and the next one. -/
structure IdentityPool where
  current : List Nat
  saved : List Nat
  next : Nat

namespace IdentityPool

structure WellFormed (p : IdentityPool) : Prop where
  current_lt : ∀ i ∈ p.current, i < p.next
  saved_lt : ∀ i ∈ p.saved, i < p.next
  current_nodup : p.current.Nodup
  saved_nodup : p.saved.Nodup

inductive Step (p q : IdentityPool) : Prop where
  /-- Survivors keep their identity, newcomers take fresh ones. -/
  | keep (saved : q.saved = p.saved) (next : p.next ≤ q.next) (nodup : q.current.Nodup)
      (current : ∀ i ∈ q.current, i ∈ p.current ∨ p.next ≤ i ∧ i < q.next)
  | restore (saved : q.saved = p.saved) (next : q.next = p.next) (current : q.current = p.saved)
  | renew (saved : q.saved = q.current) (next : p.next ≤ q.next) (nodup : q.current.Nodup)
      (current : ∀ i ∈ q.current, p.next ≤ i ∧ i < q.next)

/-- Handed out once, and gone from both populations. -/
def Retired (p : IdentityPool) (i : Nat) : Prop := i < p.next ∧ i ∉ p.current ∧ i ∉ p.saved

variable {p q : IdentityPool}

theorem Step.next_le (h : Step p q) : p.next ≤ q.next := by
  cases h with
  | keep _ hn _ _ => exact hn
  | restore _ hn _ => exact hn.ge
  | renew _ hn _ _ => exact hn

theorem Step.wellFormed (h : Step p q) (hp : p.WellFormed) : q.WellFormed := by
  have hle := h.next_le
  cases h with
  | keep hs _ hnd hc =>
    refine ⟨fun i hi => ?_, fun i hi => ?_, hnd, hs ▸ hp.saved_nodup⟩
    · rcases hc i hi with hi | hi
      · exact (hp.current_lt i hi).trans_le hle
      · exact hi.2
    · exact (hp.saved_lt i (hs ▸ hi)).trans_le hle
  | restore hs _ hc =>
    refine ⟨fun i hi => ?_, fun i hi => ?_, hc ▸ hp.saved_nodup, hs ▸ hp.saved_nodup⟩
    · exact (hp.saved_lt i (hc ▸ hi)).trans_le hle
    · exact (hp.saved_lt i (hs ▸ hi)).trans_le hle
  | renew hs _ hnd hc =>
    exact ⟨fun i hi => (hc i hi).2, fun i hi => (hc i (hs ▸ hi)).2, hnd, hs ▸ hnd⟩

/-- What is retired stays retired. -/
theorem Step.retired (h : Step p q) {i : Nat} (hi : p.Retired i) : q.Retired i := by
  obtain ⟨hlt, hcur, hsaved⟩ := hi
  refine ⟨hlt.trans_le h.next_le, ?_, ?_⟩
  · cases h with
    | keep _ _ _ hc =>
      intro hq
      rcases hc i hq with hq | hq
      · exact hcur hq
      · omega
    | restore _ _ hc => exact hc ▸ hsaved
    | renew _ _ _ hc => intro hq; have := (hc i hq).1; omega
  · cases h with
    | keep hs _ _ _ => exact hs ▸ hsaved
    | restore hs _ _ => exact hs ▸ hsaved
    | renew hs _ _ hc => intro hq; have := (hc i (hs ▸ hq)).1; omega

theorem Step.refl (hp : p.WellFormed) : Step p p :=
  .keep rfl le_rfl hp.current_nodup fun _ hi => .inl hi

/-! ## Populations rewritten one after the other -/

/-- Every population keeps members of its own, or takes fresh ones off the counter. -/
inductive Rewrites : List (List Nat) → Nat → List (List Nat) → Nat → Prop where
  | nil (n : Nat) : Rewrites [] n [] n
  | cons {l l' : List Nat} {ls ls' : List (List Nat)} {n m k : Nat}
      (le : n ≤ m) (nodup : l'.Nodup) (mem : ∀ i ∈ l', i ∈ l ∨ n ≤ i ∧ i < m)
      (tail : Rewrites ls m ls' k) : Rewrites (l :: ls) n (l' :: ls') k

namespace Rewrites

variable {ls ls' : List (List Nat)} {n k : Nat}

theorem le (h : Rewrites ls n ls' k) : n ≤ k := by
  induction h with
  | nil => exact le_rfl
  | cons hle _ _ _ ih => exact hle.trans ih

theorem mem (h : Rewrites ls n ls' k) :
    ∀ i ∈ ls'.flatten, i ∈ ls.flatten ∨ n ≤ i ∧ i < k := by
  induction h with
  | nil => intro i hi; cases hi
  | @cons l l' ls ls' n m k hle _ hmem htail ih =>
    intro i hi
    have hmk := htail.le
    rw [List.flatten_cons, List.mem_append] at hi ⊢
    rcases hi with hi | hi
    · rcases hmem i hi with hi | hi
      · exact .inl (.inl hi)
      · exact .inr ⟨hi.1, by omega⟩
    · rcases ih i hi with hi | hi
      · exact .inl (.inr hi)
      · exact .inr ⟨by omega, hi.2⟩

theorem nodup (h : Rewrites ls n ls' k) (hlt : ∀ i ∈ ls.flatten, i < n)
    (hnd : ls.flatten.Nodup) : ls'.flatten.Nodup := by
  induction h with
  | nil => exact List.nodup_nil
  | @cons l l' ls ls' n m k hle hnd' hmem htail ih =>
    rw [List.flatten_cons, List.nodup_append'] at hnd
    rw [List.flatten_cons, List.nodup_append']
    have hlt' : ∀ i ∈ ls.flatten, i < n := fun i hi => hlt i (by simp [hi])
    refine ⟨hnd', ih (fun i hi => (hlt' i hi).trans_le hle) hnd.2.1, fun i hi hj => ?_⟩
    rcases htail.mem i hj with hj | hj
    · have := hlt' i hj
      rcases hmem i hi with hi | hi
      · exact hnd.2.2 hi hj
      · omega
    · rcases hmem i hi with hi | hi
      · have := hlt i (by simp [hi]); omega
      · omega

theorem refl (hnd : ∀ l ∈ ls, l.Nodup) (n : Nat) : Rewrites ls n ls n := by
  induction ls with
  | nil => exact .nil n
  | cons l ls ih =>
    exact .cons le_rfl (hnd l List.mem_cons_self) (fun i hi => .inl hi)
      (ih fun l hl => hnd l (List.mem_cons_of_mem _ hl))

/-- One population rewritten, the others untouched. -/
theorem modify {f : List Nat → List Nat} {j : Nat} (hnd : ∀ l ∈ ls, l.Nodup) (hle : n ≤ k)
    (hf : ∀ l, ls[j]? = some l → (f l).Nodup ∧ ∀ i ∈ f l, i ∈ l ∨ n ≤ i ∧ i < k)
    (hj : j < ls.length) : Rewrites ls n (ls.modify j f) k := by
  induction ls generalizing j with
  | nil => simp at hj
  | cons l ls ih =>
    cases j with
    | zero =>
      obtain ⟨hfl, hmem⟩ := hf l rfl
      exact .cons hle hfl hmem (refl (fun l hl => hnd l (List.mem_cons_of_mem _ hl)) k)
    | succ j =>
      exact .cons le_rfl (hnd l List.mem_cons_self) (fun i hi => .inl hi)
        (ih (fun l hl => hnd l (List.mem_cons_of_mem _ hl)) hf (by simpa using hj))

end Rewrites

end IdentityPool
