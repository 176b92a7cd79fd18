import Schemaform.Lib.Yields

/-!
# Lib.Traversal

Depth-first traversal that changes a state as it goes. A node is entered once; its edges are
followed in order, each in the state the edges before it have left, and may lead to another node.

* `Traversal.visit`: the traversal, with a bound on its depth.
* `Rules`: what entering a node and following an edge promise. `Step` relates the states of a run,
  and everything said of a node, an edge or a key outlasts it.
* `visit_yields`: what a whole traversal promises. Every key it adds is covered, and it does not
  exhaust a depth above the measure that every entered node lowers. Nor does its result depend on
  how far above that is (`visit_agree`).
-/

structure Traversal (σ ν δ ε : Type) where
  /-- The edges of a node, none where it was entered before. -/
  enter : ν → σ → Except ε (Option (σ × List δ))
  follow : δ → σ → Except ε (σ × Option ν)
  exhausted : ε

namespace Traversal

variable {σ ν δ ε κ : Type}

def visit (traversal : Traversal σ ν δ ε) : Nat → ν → σ → Except ε σ
  | 0, _, _ => .error traversal.exhausted
  | fuel + 1, node, state => do
    match ← traversal.enter node state with
    | none => pure state
    | some (state, edges) =>
      edges.foldlM (fun state edge => do
        let (state, next) ← traversal.follow edge state
        match next with
        | none => pure state
        | some node => visit traversal fuel node state) state

/-- One edge and the node behind it. -/
def cross (traversal : Traversal σ ν δ ε) (fuel : Nat) (state : σ) (edge : δ) : Except ε σ := do
  let (state, next) ← traversal.follow edge state
  match next with
  | none => pure state
  | some node => traversal.visit fuel node state

theorem visit_succ (traversal : Traversal σ ν δ ε) (fuel : Nat) (node : ν) (state : σ) :
    traversal.visit (fuel + 1) node state = (do
      match ← traversal.enter node state with
      | none => pure state
      | some (state, edges) => edges.foldlM (traversal.cross fuel) state) := rfl

structure Rules (traversal : Traversal σ ν δ ε) (κ : Type) where
  Inv : σ → Prop
  Step : σ → σ → Prop
  /-- A node that may be visited, an edge that may be followed. -/
  Ready : ν → σ → Prop
  Out : δ → σ → Prop
  /-- A node that was visited, an edge that was followed. -/
  Seen : ν → σ → Prop
  Through : δ → σ → Prop
  /-- A key that was entered, and one whose edges were all followed. -/
  Key : κ → σ → Prop
  Covered : κ → σ → Prop
  size : σ → Nat
  Fails : ε → Prop
  refl : ∀ s, Step s s
  trans : ∀ s s' s'', Step s s' → Step s' s'' → Step s s''
  ready_step : ∀ n s s', Ready n s → Step s s' → Ready n s'
  out_step : ∀ e s s', Out e s → Step s s' → Out e s'
  seen_step : ∀ n s s', Seen n s → Step s s' → Seen n s'
  through_step : ∀ e s s', Through e s → Step s s' → Through e s'
  covered_step : ∀ k s s', Covered k s → Step s s' → Covered k s'
  size_step : ∀ s s', Step s s' → size s' ≤ size s
  entering : ∀ n s, Inv s → Ready n s → Yields (traversal.enter n s)
    (fun entered => ∀ s' edges, entered = some (s', edges) →
      Step s s' ∧ Inv s' ∧ size s' < size s ∧ Seen n s' ∧ (∀ e ∈ edges, Out e s') ∧
      ∀ k, Key k s' → Key k s ∨
        ∀ s'', Step s' s'' → (∀ e ∈ edges, Through e s'') → Covered k s'') Fails
  known : ∀ n s, Inv s → Ready n s → traversal.enter n s = .ok none → Seen n s
  /-- What an edge promises, it promises once the node behind it has been visited. -/
  following : ∀ e s, Inv s → Out e s → Yields (traversal.follow e s)
    (fun followed => Inv followed.1 ∧ size followed.1 ≤ size s ∧
      (∀ k, Key k followed.1 → Key k s) ∧
      (followed.2 = none → Step s followed.1 ∧ Through e followed.1) ∧
      ∀ n, followed.2 = some n → Ready n followed.1 ∧
        ∀ s', Step followed.1 s' → Seen n s' → Step s s' ∧ Through e s') Fails

namespace Rules

variable {traversal : Traversal σ ν δ ε} (rules : Rules traversal κ)

/-- A step after which every key is covered, but for the keys there were. -/
def Closes (s s' : σ) : Prop :=
  rules.Step s s' ∧ ∀ k, rules.Key k s' → rules.Key k s ∨ rules.Covered k s'

theorem Closes.refl (s : σ) : rules.Closes s s := ⟨rules.refl s, fun _ hk => .inl hk⟩

variable {rules}

theorem Closes.trans {s s' s'' : σ} (h : rules.Closes s s') (h' : rules.Closes s' s'') :
    rules.Closes s s'' := by
  refine ⟨rules.trans s s' s'' h.1 h'.1, fun k hk => ?_⟩
  rcases h'.2 k hk with hk | hk
  · rcases h.2 k hk with hk | hk
    · exact .inl hk
    · exact .inr (rules.covered_step k s' s'' hk h'.1)
  · exact .inr hk

/-- The ways a traversal ends without a result. -/
def FailsWithin (rules : Rules traversal κ) (fuel : Nat) (s : σ) (e : ε) : Prop :=
  rules.Fails e ∨ e = traversal.exhausted ∧ fuel ≤ rules.size s

theorem cross_outcome (rules : Rules traversal κ) {fuel : Nat}
    (hvisit : ∀ n s, rules.Inv s → rules.Ready n s → Yields (traversal.visit fuel n s)
      (fun s' => rules.Closes s s' ∧ rules.Inv s' ∧ rules.Seen n s') (rules.FailsWithin fuel s))
    {e : δ} {s : σ} (hinv : rules.Inv s) (hout : rules.Out e s) :
    Yields (traversal.cross fuel s e)
      (fun s' => rules.Closes s s' ∧ rules.Inv s' ∧ rules.Through e s')
      (rules.FailsWithin fuel s) := by
  refine ((rules.following e s hinv hout).mono_fails fun _ he => .inl he).bind
    fun followed _ hfollowed => ?_
  obtain ⟨t, next⟩ := followed
  obtain ⟨htinv, hshrinks, hold, hnone, hsome⟩ := hfollowed
  cases next with
  | none =>
    obtain ⟨hstep, hthrough⟩ := hnone rfl
    exact ⟨⟨hstep, fun k hk => .inl (hold k hk)⟩, htinv, hthrough⟩
  | some n =>
    obtain ⟨hn, hbehind⟩ := hsome n rfl
    refine ((hvisit n t htinv hn).mono_fails ?_).mono ?_
    · intro e hfails
      rcases hfails with hfails | ⟨rfl, hfuel⟩
      · exact .inl hfails
      · exact .inr ⟨rfl, Nat.le_trans hfuel hshrinks⟩
    · intro u hu
      obtain ⟨hclosed, huinv, hseen⟩ := hu
      obtain ⟨hstep, hthrough⟩ := hbehind u hclosed.1 hseen
      refine ⟨⟨hstep, fun k hk => ?_⟩, huinv, hthrough⟩
      exact (hclosed.2 k hk).imp_left (hold k)

theorem visit_outcome (rules : Rules traversal κ) (fuel : Nat) (n : ν) (s : σ) (hinv : rules.Inv s)
    (hready : rules.Ready n s) : Yields (traversal.visit fuel n s)
      (fun s' => rules.Closes s s' ∧ rules.Inv s' ∧ rules.Seen n s') (rules.FailsWithin fuel s) := by
  induction fuel generalizing n s with
  | zero => exact .inr ⟨rfl, Nat.zero_le _⟩
  | succ fuel ih =>
    rw [visit_succ]
    refine ((rules.entering n s hinv hready).mono_fails fun _ he => .inl he).bind
      fun entered heq hentered => ?_
    cases entered with
    | none => exact ⟨.refl rules s, hinv, rules.known n s hinv hready heq⟩
    | some entered =>
      obtain ⟨middle, edges⟩ := entered
      obtain ⟨hstep, hmiddle, hsize, hseen, hout, hkeys⟩ := hentered middle edges rfl
      have hedge (e : δ) (he : e ∈ edges) (t : σ) (ht : rules.Closes middle t) (htinv : rules.Inv t) :
          Yields (traversal.cross fuel t e)
            (fun t' => rules.Closes t t' ∧ rules.Inv t' ∧ rules.Through e t')
            (rules.FailsWithin (fuel + 1) s) := by
        have hout := rules.out_step e middle t (hout e he) ht.1
        refine (cross_outcome rules ih htinv hout).mono_fails fun _ hfails => ?_
        rcases hfails with hfails | ⟨rfl, hfuel⟩
        · exact .inl hfails
        · have hle := rules.size_step middle t ht.1
          exact .inr ⟨rfl, by omega⟩
      have hloop := Yields.foldlM rules.Closes rules.Inv rules.Through (Closes.refl rules)
        (fun _ _ _ => Closes.trans) (fun e t t' h ht => rules.through_step e t t' h ht.1) edges
        hedge hmiddle
      refine hloop.mono fun t ht => ?_
      obtain ⟨hclosed, htinv, hall⟩ := ht
      refine ⟨⟨rules.trans s middle t hstep hclosed.1, fun k hk => ?_⟩, htinv,
        rules.seen_step n middle t hseen hclosed.1⟩
      rcases hclosed.2 k hk with hk | hk
      · rcases hkeys k hk with hk | hcovered
        · exact .inl hk
        · exact .inr (hcovered t hclosed.1 hall)
      · exact .inr hk

/-- With more depth than the measure a traversal fails only as its steps do. -/
theorem visit_yields (rules : Rules traversal κ) {fuel : Nat} {n : ν} {s : σ} (hinv : rules.Inv s)
    (hready : rules.Ready n s) (hfuel : rules.size s < fuel) : Yields (traversal.visit fuel n s)
      (fun s' => rules.Closes s s' ∧ rules.Inv s' ∧ rules.Seen n s') rules.Fails := by
  refine (visit_outcome rules fuel n s hinv hready).mono_fails fun e he => ?_
  rcases he with he | ⟨_, hle⟩
  · exact he
  · omega

/-- Any depth above the measure gives the same, also in another traversal with the same steps. -/
theorem visit_agree (rules : Rules traversal κ) (other : Traversal σ ν δ ε)
    (henter : ∀ n s, other.enter n s = traversal.enter n s)
    (hfollow : ∀ e s, rules.Inv s → rules.Out e s → other.follow e s = traversal.follow e s)
    {fuel fuel' : Nat} {n : ν} {s : σ} (hinv : rules.Inv s) (hready : rules.Ready n s)
    (hfuel : rules.size s < fuel) (hfuel' : rules.size s < fuel') :
    other.visit fuel' n s = traversal.visit fuel n s := by
  induction fuel generalizing fuel' n s with
  | zero => omega
  | succ fuel ih =>
    cases fuel' with
    | zero => omega
    | succ fuel' =>
      rw [visit_succ, visit_succ, henter]
      cases hentered : traversal.enter n s with
      | error e => rfl
      | ok entered =>
        cases entered with
        | none => rfl
        | some entered =>
          obtain ⟨middle, edges⟩ := entered
          obtain ⟨-, hmiddle, hsize, -, hout, -⟩ :=
            (rules.entering n s hinv hready).returns_of_ok hentered middle edges rfl
          refine Yields.foldlM_congr rules.Step rules.Inv rules.refl rules.trans edges
            (fun e he t ht htinv => ?_) hmiddle
          have hle := rules.size_step middle t ht
          have hout := rules.out_step e middle t (hout e he) ht
          constructor
          · unfold cross
            rw [hfollow e t htinv hout]
            cases hfollowed : traversal.follow e t with
            | error e => rfl
            | ok followed =>
              obtain ⟨t', next⟩ := followed
              cases next with
              | none => rfl
              | some m =>
                obtain ⟨htinv', hshrinks, -, -, hsome⟩ :=
                  (rules.following e t htinv hout).returns_of_ok hfollowed
                have hshrinks : rules.size t' ≤ rules.size t := hshrinks
                exact ih htinv' (hsome m rfl).1 (by omega) (by omega)
          · have hcross := cross_outcome rules (visit_outcome rules fuel) htinv hout
            exact (hcross.mono fun t' ht' => ⟨ht'.1.1, ht'.2.1⟩).mono_fails fun _ _ => trivial

end Rules

end Traversal
