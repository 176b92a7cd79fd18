import Schemaform.Lib.Outcome

/-!
# Lib.Yields

Postconditions of computations that return or fail, one for each way to end.

* `Yields x returns fails`: `x` returns what `returns` allows or fails as `fails` allows.
* `Yields.bind`, `Yields.mono`: sequencing and weakening.
* `Yields.mapM`, `Yields.forM`, `Yields.filterM`: the same for every item of a list.
* `Yields.foldlM`: a loop whose body keeps an invariant and leaves a lasting fact about each item.
* `Yields.foldlM_congr`: two bodies that agree wherever the loop comes to.
-/

def Yields {α ε : Type} (x : Except ε α) (returns : α → Prop) (fails : ε → Prop) : Prop :=
  match x with
  | .ok a => returns a
  | .error e => fails e

namespace Yields

variable {α β σ ε ε' : Type} {x : Except ε α} {returns returns' : α → Prop} {fails : ε → Prop}

@[simp] theorem ok_iff {a : α} : Yields (.ok a : Except ε α) returns fails ↔ returns a := Iff.rfl

@[simp] theorem pure_iff {a : α} : Yields (pure a : Except ε α) returns fails ↔ returns a := Iff.rfl

@[simp] theorem error_iff {e : ε} : Yields (.error e : Except ε α) returns fails ↔ fails e := Iff.rfl

theorem returns_of_ok {a : α} (h : Yields x returns fails) (hx : x = .ok a) : returns a := by
  subst hx
  exact h

theorem fails_of_error {e : ε} (h : Yields x returns fails) (hx : x = .error e) : fails e := by
  subst hx
  exact h

theorem intro (hok : ∀ a, x = .ok a → returns a) (herror : ∀ e, x = .error e → fails e) :
    Yields x returns fails := by
  cases x with
  | ok a => exact hok a rfl
  | error e => exact herror e rfl

theorem mono (h : Yields x returns fails) (hreturns : ∀ a, returns a → returns' a) :
    Yields x returns' fails := by
  cases x with
  | ok a => exact hreturns a h
  | error e => exact h

theorem mono_fails {fails' : ε → Prop} (h : Yields x returns fails)
    (hfails : ∀ e, fails e → fails' e) : Yields x returns fails' := by
  cases x with
  | ok a => exact h
  | error e => exact hfails e h

theorem bind {f : α → Except ε β} {after : β → Prop} (h : Yields x returns fails)
    (hf : ∀ a, x = .ok a → returns a → Yields (f a) after fails) : Yields (x >>= f) after fails := by
  cases x with
  | ok a => exact hf a rfl h
  | error e => exact h

theorem mapError {f : ε → ε'} {fails' : ε' → Prop} (h : Yields x returns fails)
    (hfails : ∀ e, fails e → fails' (f e)) : Yields (x.mapError f) returns fails' := by
  cases x with
  | ok a => exact h
  | error e => exact hfails e h

theorem mapM (each : α → β → Prop) {f : α → Except ε β} (l : List α)
    (h : ∀ a ∈ l, Yields (f a) (each a) fails) :
    Yields (l.mapM f) (fun bs => (∀ b ∈ bs, ∃ a ∈ l, each a b) ∧ ∀ a ∈ l, ∃ b ∈ bs, each a b)
      fails := by
  induction l with
  | nil =>
    exact ⟨fun _ hb => absurd hb List.not_mem_nil, fun _ ha => absurd ha List.not_mem_nil⟩
  | cons a l ih =>
    rw [List.mapM_cons]
    refine bind (h a List.mem_cons_self) fun b _ hb => ?_
    refine bind (ih fun a' ha' => h a' (List.mem_cons_of_mem a ha')) fun bs _ hbs => ?_
    constructor
    · refine List.forall_mem_cons.mpr ⟨⟨a, List.mem_cons_self, hb⟩, fun b' hb' => ?_⟩
      obtain ⟨a', ha', heach⟩ := hbs.1 b' hb'
      exact ⟨a', List.mem_cons_of_mem a ha', heach⟩
    · refine List.forall_mem_cons.mpr ⟨⟨b, List.mem_cons_self, hb⟩, fun a' ha' => ?_⟩
      obtain ⟨b', hb', heach⟩ := hbs.2 a' ha'
      exact ⟨b', List.mem_cons_of_mem b hb', heach⟩

theorem mapM_fails {f : α → Except ε β} (l : List α)
    (h : ∀ a ∈ l, Yields (f a) (fun _ => True) fails) : Yields (l.mapM f) (fun _ => True) fails :=
  (mapM (fun _ _ => True) l h).mono fun _ _ => trivial

theorem forM {f : α → Except ε PUnit} {each : α → Prop} (l : List α)
    (h : ∀ a ∈ l, Yields (f a) (fun _ => each a) fails) :
    Yields (l.forM f) (fun _ => ∀ a ∈ l, each a) fails := by
  induction l with
  | nil => exact fun _ ha => absurd ha List.not_mem_nil
  | cons a l ih =>
    rw [List.forM_eq_forM, List.forM_cons]
    refine bind (h a List.mem_cons_self) fun _ _ ha => ?_
    refine (ih fun a' ha' => h a' (List.mem_cons_of_mem a ha')).mono fun _ hl => ?_
    exact List.forall_mem_cons.mpr ⟨ha, hl⟩

theorem filterAuxM {p : α → Except ε Bool} (l kept : List α)
    (h : ∀ a ∈ l, Yields (p a) (fun _ => True) fails) :
    Yields (List.filterAuxM p l kept) (fun all => ∀ a ∈ all, a ∈ l ∨ a ∈ kept) fails := by
  induction l generalizing kept with
  | nil => exact fun _ ha => .inr ha
  | cons a l ih =>
    rw [List.filterAuxM]
    refine bind (h a List.mem_cons_self) fun b _ _ => ?_
    have hrest := ih (cond b (a :: kept) kept) fun a' ha' => h a' (List.mem_cons_of_mem a ha')
    refine hrest.mono fun all hall a' ha' => ?_
    rcases hall a' ha' with hmem | hmem
    · exact .inl (List.mem_cons_of_mem a hmem)
    · cases b with
      | false => exact .inr hmem
      | true =>
        rcases List.mem_cons.mp hmem with rfl | hmem
        · exact .inl List.mem_cons_self
        · exact .inr hmem

theorem filterM {p : α → Except ε Bool} (l : List α)
    (h : ∀ a ∈ l, Yields (p a) (fun _ => True) fails) :
    Yields (l.filterM p) (fun kept => ∀ a ∈ kept, a ∈ l) fails := by
  unfold List.filterM
  refine bind (filterAuxM l [] h) fun kept _ hkept a ha => ?_
  exact (hkept a (List.mem_reverse.mp ha)).resolve_right List.not_mem_nil

/-- `Step` relates the states a loop passes through, `Done` outlasts every step. -/
theorem foldlM (Step : σ → σ → Prop) (Inv : σ → Prop) (Done : α → σ → Prop)
    {f : σ → α → Except ε σ} (hrefl : ∀ s, Step s s)
    (htrans : ∀ s s' s'', Step s s' → Step s' s'' → Step s s'')
    (hdone : ∀ a s s', Done a s → Step s s' → Done a s') (l : List α) {start : σ}
    (hbody : ∀ a ∈ l, ∀ s, Step start s → Inv s →
      Yields (f s a) (fun s' => Step s s' ∧ Inv s' ∧ Done a s') fails)
    (hinv : Inv start) :
    Yields (l.foldlM f start) (fun s => Step start s ∧ Inv s ∧ ∀ a ∈ l, Done a s) fails := by
  induction l generalizing start with
  | nil =>
    rw [List.foldlM_nil]
    exact ⟨hrefl start, hinv, fun _ ha => absurd ha List.not_mem_nil⟩
  | cons a l ih =>
    rw [List.foldlM_cons]
    refine bind (hbody a List.mem_cons_self start (hrefl start) hinv) fun s _ hs => ?_
    obtain ⟨hstep, hs, ha⟩ := hs
    have hrest := @ih s (fun b hb t ht => hbody b (List.mem_cons_of_mem a hb) t
      (htrans start s t hstep ht)) hs
    refine hrest.mono fun t ht => ?_
    obtain ⟨ht, hinv, hall⟩ := ht
    refine ⟨htrans start s t hstep ht, hinv, fun b hb => ?_⟩
    rcases List.mem_cons.mp hb with rfl | hb
    · exact hdone b s t ha ht
    · exact hall b hb

/-- Bodies that agree in the states a loop passes through. -/
theorem foldlM_congr (Step : σ → σ → Prop) (Inv : σ → Prop) {f g : σ → α → Except ε σ}
    (hrefl : ∀ s, Step s s) (htrans : ∀ s s' s'', Step s s' → Step s' s'' → Step s s'') (l : List α)
    {start : σ} (hbody : ∀ a ∈ l, ∀ s, Step start s → Inv s →
      f s a = g s a ∧ Yields (g s a) (fun s' => Step s s' ∧ Inv s') (fun _ => True))
    (hinv : Inv start) : l.foldlM f start = l.foldlM g start := by
  induction l generalizing start with
  | nil => rfl
  | cons a l ih =>
    obtain ⟨heq, hyields⟩ := hbody a List.mem_cons_self start (hrefl start) hinv
    rw [List.foldlM_cons, List.foldlM_cons, heq]
    cases hg : g start a with
    | error e => rfl
    | ok s =>
      obtain ⟨hstep, hs⟩ := hyields.returns_of_ok hg
      exact ih (fun b hb t ht => hbody b (List.mem_cons_of_mem a hb) t (htrans start s t hstep ht)) hs

end Yields
