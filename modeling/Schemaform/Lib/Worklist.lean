import Mathlib.Logic.Relation
import Schemaform.Lib.Yields

/-!
# Lib.Worklist

A stack of pending nodes that is worked off from the top. Working on a node changes a state and may
put further nodes on the stack.

* `Worklist.run`: the loop, with a bound on the nodes worked on.
* `run_keeps`: what working on one node keeps, the whole loop keeps.
* `run_simulates`: loops whose works go along with each other do so as a whole.
* `run_marks`: where working on a node pushes what leads on from it, unless the node is covered, the
  marks of a whole loop are those of the nodes reached, closed under what leads on.
-/

namespace Worklist

variable {σ τ α ε : Type}

/-- `work` returns the state it leaves and the nodes it pushes, the next one first. -/
def run (work : α → σ → Except ε (σ × List α)) (exhausted : ε) :
    Nat → List α → σ → Except ε σ
  | _, [], state => .ok state
  | 0, _ :: _, _ => .error exhausted
  | fuel + 1, node :: pending, state => do
    let (state, pushed) ← work node state
    run work exhausted fuel (pushed ++ pending) state

variable {work : α → σ → Except ε (σ × List α)} {exhausted : ε}

/-- What every node that is worked on keeps, whatever the bound. -/
theorem run_keeps (Inv : List α → σ → Prop)
    (hwork : ∀ node pending state state' pushed, Inv (node :: pending) state →
      work node state = .ok (state', pushed) → Inv (pushed ++ pending) state')
    {fuel : Nat} {pending : List α} {state state' : σ} (hinv : Inv pending state)
    (h : run work exhausted fuel pending state = .ok state') : Inv [] state' := by
  induction fuel generalizing pending state with
  | zero =>
    cases pending with
    | nil =>
      cases h
      exact hinv
    | cons node pending => cases h
  | succ fuel ih =>
    cases pending with
    | nil =>
      cases h
      exact hinv
    | cons node pending =>
      obtain ⟨⟨between, pushed⟩, hnode, h⟩ := bind_eq_ok.mp h
      exact ih (hwork node pending state between pushed hinv hnode) h

theorem run_simulates {work' : α → τ → Except ε (τ × List α)} {R : σ → τ → Prop}
    (hwork : ∀ node state state' after pushed, R state state' →
      work node state = .ok (after, pushed) →
      ∃ after', work' node state' = .ok (after', pushed) ∧ R after after')
    {fuel fuel' : Nat} (hfuel : fuel ≤ fuel') {pending : List α} {state after : σ} {state' : τ}
    (hR : R state state') (h : run work exhausted fuel pending state = .ok after) :
    ∃ after', run work' exhausted fuel' pending state' = .ok after' ∧ R after after' := by
  induction fuel generalizing fuel' pending state state' with
  | zero =>
    cases pending with
    | nil =>
      cases h
      exact ⟨state', by cases fuel' <;> rfl, hR⟩
    | cons node pending => cases h
  | succ fuel ih =>
    cases pending with
    | nil =>
      cases h
      exact ⟨state', by cases fuel' <;> rfl, hR⟩
    | cons node pending =>
      obtain ⟨⟨between, pushed⟩, hnode, h⟩ := bind_eq_ok.mp h
      obtain ⟨between', hnode', hbetween⟩ := hwork node state state' between pushed hR hnode
      cases fuel' with
      | zero => omega
      | succ fuel' =>
        obtain ⟨after', hafter', hR'⟩ := ih (Nat.le_of_succ_le_succ hfuel) hbetween h
        exact ⟨after', bind_eq_ok.mpr ⟨_, hnode', hafter'⟩, hR'⟩

/-! ## Marks -/

/-- What working on one node does to the nodes that are marked and those that are covered. -/
structure Marked {β : Type} (mark : α → β) (succ : β → α → Prop) (done : σ → β → Prop)
    (covered : σ → α → Prop) (node : α) (state after : σ) (pushed : List α) : Prop where
  covers : covered after node
  keeps : ∀ a, covered state a → covered after a
  marks : ∀ b, done after b → done state b ∨ b = mark node ∧ ∀ a, succ b a → a ∈ pushed
  follows : ∀ a ∈ pushed, succ (mark node) a

variable {β : Type} {mark : α → β} {succ : β → α → Prop} {done : σ → β → Prop}
  {covered : σ → α → Prop}

/-- By induction on the bound. -/
theorem run_marks {Inv : σ → Prop}
    (hwork : ∀ node state after pushed, Inv state → work node state = .ok (after, pushed) →
      Inv after ∧ Marked mark succ done covered node state after pushed)
    {fuel : Nat} {pending : List α} {state after : σ} (hinv : Inv state)
    (h : run work exhausted fuel pending state = .ok after) :
    Inv after ∧ (∀ a, covered state a → covered after a) ∧ (∀ a ∈ pending, covered after a) ∧
      ∀ b, done after b → done state b ∨
        (∃ first ∈ pending, ∃ a, Relation.ReflTransGen (fun a => succ (mark a)) first a ∧
          b = mark a) ∧ ∀ a, succ b a → covered after a := by
  induction fuel generalizing pending state with
  | zero =>
    cases pending with
    | nil =>
      cases h
      exact ⟨hinv, fun _ ha => ha, by simp, fun _ hb => .inl hb⟩
    | cons node pending => cases h
  | succ fuel ih =>
    cases pending with
    | nil =>
      cases h
      exact ⟨hinv, fun _ ha => ha, by simp, fun _ hb => .inl hb⟩
    | cons node pending =>
      obtain ⟨⟨between, pushed⟩, hnode, h⟩ := bind_eq_ok.mp h
      obtain ⟨hbetween, hmarked⟩ := hwork node state between pushed hinv hnode
      obtain ⟨hafter, hkeeps, hpending, hdone⟩ := ih hbetween h
      refine ⟨hafter, fun a ha => hkeeps a (hmarked.keeps a ha), ?_, ?_⟩
      · intro a ha
        rcases List.mem_cons.mp ha with rfl | ha
        · exact hkeeps a hmarked.covers
        · exact hpending a (List.mem_append_right _ ha)
      · intro b hb
        rcases hdone b hb with hb | ⟨⟨first, hfirst, a, hreach, rfl⟩, hclosed⟩
        · rcases hmarked.marks b hb with hb | ⟨rfl, hpushed⟩
          · exact .inl hb
          · refine .inr ⟨⟨node, List.mem_cons_self, node, .refl, rfl⟩, fun a ha => ?_⟩
            exact hpending a (List.mem_append_left _ (hpushed a ha))
        · refine .inr ⟨?_, hclosed⟩
          rcases List.mem_append.mp hfirst with hfirst | hfirst
          · exact ⟨node, List.mem_cons_self, a, .head (hmarked.follows first hfirst) hreach, rfl⟩
          · exact ⟨first, List.mem_cons_of_mem _ hfirst, a, hreach, rfl⟩

end Worklist
