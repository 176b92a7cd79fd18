import Mathlib.Logic.Relation

/-!
# Lib.Explore

Depth-first search through a graph with references, each reference followed once.

* `search`: looks for a node that `own` accepts; `none` is a panic or too little fuel.
* `Explored`: what a search that found nothing has seen.
* `search_false`: such a search has seen all it reaches without the references visited before.
-/

namespace Explore

structure Walk (α κ : Type) where
  /-- The question asked of a node, with the references visited so far at hand. -/
  own : α → List κ → Option Bool
  target : α → Option (Option α)
  key : α → κ
  children : α → List (Option α)

variable {α κ : Type}

def anyChild (visit : α → List κ → Option (Bool × List κ)) :
    List (Option α) → List κ → Option (Bool × List κ)
  | [], visited => some (false, visited)
  | child :: children, visited => do
    let (found, visited) ← visit (← child) visited
    if found then some (true, visited) else anyChild visit children visited

def follow [DecidableEq κ] (visit : α → List κ → Option (Bool × List κ)) (key : α → κ)
    (target : Option α)
    (visited : List κ) : Option (Bool × List κ) :=
  match target with
  | none => some (false, visited)
  | some t => if key t ∈ visited then some (false, visited) else visit t (key t :: visited)

def search [DecidableEq κ] (walk : Walk α κ) : Nat → α → List κ → Option (Bool × List κ)
  | 0, _, _ => none
  | fuel + 1, a, visited => do
    if ← walk.own a visited then some (true, visited)
    else
      let (found, visited) ← follow (search walk fuel) walk.key (← walk.target a) visited
      if found then some (true, visited)
      else anyChild (search walk fuel) (walk.children a) visited

/-! ## What a search has seen -/

def Refers (walk : Walk α κ) (a b : α) : Prop := walk.target a = some (some b)

def Edge (walk : Walk α κ) (a b : α) : Prop := Refers walk a b ∨ some b ∈ walk.children a

def Reaches (walk : Walk α κ) : α → α → Prop := Relation.ReflTransGen (Edge walk)

/-- Two targets of references with one key are one node. -/
def OneNode (walk : Walk α κ) : Prop :=
  ∀ a b c d, Refers walk a b → Refers walk c d → walk.key b = walk.key d → b = d

/-- A key visited before, or of a target referred to from within. -/
def Known (walk : Walk α κ) (visited : List κ) (seen : α → Prop) (k : κ) : Prop :=
  k ∈ visited ∨ ∃ d e, seen d ∧ seen e ∧ Refers walk d e ∧ walk.key e = k

/-- A search found nothing among what it has seen, and has seen all but what was visited. -/
structure Explored (walk : Walk α κ) (visited visited' : List κ) (seen : α → Prop) : Prop where
  target : ∀ d, seen d → ∀ c, Refers walk d c → seen c ∨ walk.key c ∈ visited
  children : ∀ d, seen d → ∀ c, some c ∈ walk.children d → seen c
  grows : ∀ k ∈ visited, k ∈ visited'
  known : ∀ k ∈ visited', Known walk visited seen k
  quiet : ∀ d, seen d → ∃ atHand, walk.own d atHand = some false ∧
    ∀ k ∈ atHand, Known walk visited seen k

section Explored

variable {walk : Walk α κ} {visited visited' middle : List κ} {seen seen' : α → Prop}

theorem Known.mono {base : List κ} {k : κ} (h : Known walk base seen k)
    (hbase : ∀ k ∈ base, Known walk visited seen' k) (hseen : ∀ d, seen d → seen' d) :
    Known walk visited seen' k := by
  rcases h with h | ⟨d, e, hd, he, hrefers, hkey⟩
  · exact hbase k h
  · exact .inr ⟨d, e, hseen d hd, hseen e he, hrefers, hkey⟩

/-- A known target is seen or was visited before. -/
theorem Known.absorb (hone : OneNode walk) {d c : α} (hrefers : Refers walk d c)
    (h : Known walk visited seen (walk.key c)) : seen c ∨ walk.key c ∈ visited := by
  rcases h with h | ⟨d', e, _, he, hrefers', hkey⟩
  · exact .inr h
  · exact .inl (hone d' e d c hrefers' hrefers hkey ▸ he)

theorem Explored.nil : Explored walk visited visited fun _ => False where
  target _ h := h.elim
  children _ h := h.elim
  grows _ h := h
  known _ h := .inl h
  quiet _ h := h.elim

theorem Explored.union (hone : OneNode walk) (h : Explored walk visited middle seen)
    (h' : Explored walk middle visited' seen') :
    Explored walk visited visited' fun d => seen d ∨ seen' d := by
  have hfirst (k : κ) (hk : Known walk visited seen k) :
      Known walk visited (fun d => seen d ∨ seen' d) k :=
    hk.mono (fun _ hk => .inl hk) fun _ => .inl
  have hsecond (k : κ) (hk : Known walk middle seen' k) :
      Known walk visited (fun d => seen d ∨ seen' d) k :=
    hk.mono (fun k hk => hfirst k (h.known k hk)) fun _ => .inr
  constructor
  · rintro d (hd | hd) c hrefers
    · rcases h.target d hd c hrefers with hc | hc
      · exact .inl (.inl hc)
      · exact .inr hc
    · rcases h'.target d hd c hrefers with hc | hc
      · exact .inl (.inr hc)
      · exact (hsecond _ (.inl hc)).absorb hone hrefers
  · rintro d (hd | hd) c hc
    · exact .inl (h.children d hd c hc)
    · exact .inr (h'.children d hd c hc)
  · exact fun k hk => h'.grows k (h.grows k hk)
  · exact fun k hk => hsecond k (h'.known k hk)
  · rintro d (hd | hd)
    · obtain ⟨atHand, hown, hall⟩ := h.quiet d hd
      exact ⟨atHand, hown, fun k hk => hfirst k (hall k hk)⟩
    · obtain ⟨atHand, hown, hall⟩ := h'.quiet d hd
      exact ⟨atHand, hown, fun k hk => hsecond k (hall k hk)⟩

/-- What a search of one node promises when it finds nothing. -/
def Finds (walk : Walk α κ) (visit : α → List κ → Option (Bool × List κ)) : Prop :=
  ∀ a visited visited', visit a visited = some (false, visited') →
    ∃ seen, Explored walk visited visited' seen ∧ seen a ∧ ∀ d, seen d → Reaches walk a d

variable {visit : α → List κ → Option (Bool × List κ)}

theorem anyChild_false (hone : OneNode walk) (hvisit : Finds walk visit)
    {children : List (Option α)} (h : anyChild visit children visited = some (false, visited')) :
    ∃ seen, Explored walk visited visited' seen ∧ (∀ c, some c ∈ children → seen c) ∧
      ∀ d, seen d → ∃ c, some c ∈ children ∧ Reaches walk c d := by
  induction children generalizing visited with
  | nil =>
    obtain rfl : visited = visited' := (Prod.mk.inj (Option.some.inj h)).2
    exact ⟨_, .nil, fun _ hc => absurd hc List.not_mem_nil, fun _ hd => hd.elim⟩
  | cons child children ih =>
    cases child with
    | none => cases h
    | some a =>
      have h : ((visit a visited).bind fun result => if result.1 then some (true, result.2)
          else anyChild visit children result.2) = some (false, visited') := h
      obtain ⟨⟨found, middle⟩, hfirst, h⟩ := Option.bind_eq_some_iff.mp h
      cases found with
      | true => cases h
      | false =>
        obtain ⟨seen, hexplored, ha, hsound⟩ := hvisit a visited middle hfirst
        obtain ⟨seen', hexplored', hall, hsound'⟩ := ih h
        refine ⟨fun d => seen d ∨ seen' d, hexplored.union hone hexplored', ?_, ?_⟩
        · intro c hc
          rcases List.mem_cons.mp hc with heq | hc
          · exact .inl (Option.some.inj heq ▸ ha)
          · exact .inr (hall c hc)
        · intro d hd
          rcases hd with hd | hd
          · exact ⟨a, List.mem_cons_self, hsound d hd⟩
          · obtain ⟨c, hc, hreaches⟩ := hsound' d hd
            exact ⟨c, List.mem_cons_of_mem _ hc, hreaches⟩

theorem follow_false [DecidableEq κ] (hvisit : Finds walk visit) {target : Option α}
    (h : follow visit walk.key target visited = some (false, visited')) :
    ∃ seen base, Explored walk base visited' seen ∧ (∀ k ∈ visited, k ∈ base) ∧
      (∀ k ∈ base, k ∈ visited ∨ ∃ t, target = some t ∧ seen t ∧ walk.key t = k) ∧
      (∀ t, target = some t → seen t ∨ walk.key t ∈ visited) ∧
      ∀ d, seen d → ∃ t, target = some t ∧ Reaches walk t d := by
  cases target with
  | none =>
    obtain rfl : visited = visited' := (Prod.mk.inj (Option.some.inj h)).2
    refine ⟨_, visited, .nil, fun _ hk => hk, fun _ hk => .inl hk, ?_, fun _ hd => hd.elim⟩
    intro t ht
    cases ht
  | some t =>
    rw [follow] at h
    by_cases hkey : walk.key t ∈ visited
    · rw [if_pos hkey] at h
      obtain rfl : visited = visited' := (Prod.mk.inj (Option.some.inj h)).2
      exact ⟨_, visited, .nil, fun _ hk => hk, fun _ hk => .inl hk,
        fun _ ht => .inr (Option.some.inj ht ▸ hkey), fun _ hd => hd.elim⟩
    · rw [if_neg hkey] at h
      obtain ⟨seen, hexplored, ht, hsound⟩ := hvisit t _ _ h
      refine ⟨seen, _, hexplored, fun _ hk => List.mem_cons_of_mem _ hk, ?_,
        fun _ heq => .inl (Option.some.inj heq ▸ ht), fun d hd => ⟨t, rfl, hsound d hd⟩⟩
      intro k hk
      rcases List.mem_cons.mp hk with rfl | hk
      · exact .inr ⟨t, rfl, ht, rfl⟩
      · exact .inl hk

theorem Reaches.of_edge {a b c : α} (h : Edge walk a b) (hc : Reaches walk b c) :
    Reaches walk a c := Relation.ReflTransGen.head h hc

theorem search_finds [DecidableEq κ] (hone : OneNode walk) (fuel : Nat) :
    Finds walk (search walk fuel) := by
  induction fuel with
  | zero => exact fun _ _ _ h => nomatch h
  | succ fuel ih =>
    intro a visited visited' h
    rw [search] at h
    obtain ⟨accepted, hown, h⟩ := Option.bind_eq_some_iff.mp h
    cases accepted with
    | true => cases h
    | false =>
      obtain ⟨target, htarget, h⟩ := Option.bind_eq_some_iff.mp h
      obtain ⟨⟨found, middle⟩, hfollow, h⟩ := Option.bind_eq_some_iff.mp h
      cases found with
      | true => cases h
      | false =>
        obtain ⟨seen, base, hexplored, hbase, hnew, hfirst, hsound⟩ := follow_false ih hfollow
        obtain ⟨seen', hexplored', hall, hsound'⟩ := anyChild_false hone ih h
        have hrefers (t : α) : Refers walk a t ↔ target = some t := by
          rw [Refers, htarget, Option.some.injEq]
        have hadded (k : κ) (hk : k ∈ base) :
            Known walk visited (fun d => d = a ∨ seen d ∨ seen' d) k := by
          rcases hnew k hk with hk | ⟨t, ht, hseen, hkey⟩
          · exact .inl hk
          · exact .inr ⟨a, t, .inl rfl, .inr (.inl hseen), (hrefers t).mpr ht, hkey⟩
        have hleft (k : κ) (hk : Known walk base seen k) :
            Known walk visited (fun d => d = a ∨ seen d ∨ seen' d) k :=
          hk.mono hadded fun _ hd => .inr (.inl hd)
        have hright (k : κ) (hk : Known walk middle seen' k) :
            Known walk visited (fun d => d = a ∨ seen d ∨ seen' d) k :=
          hk.mono (fun k hk => hleft k (hexplored.known k hk)) fun _ hd => .inr (.inr hd)
        refine ⟨fun d => d = a ∨ seen d ∨ seen' d, ⟨?_, ?_, ?_, ?_, ?_⟩, .inl rfl, ?_⟩
        · rintro d (rfl | hd | hd) c hc
          · rcases hfirst c ((hrefers c).mp hc) with hseen | hkey
            · exact .inl (.inr (.inl hseen))
            · exact .inr hkey
          · rcases hexplored.target d hd c hc with hseen | hkey
            · exact .inl (.inr (.inl hseen))
            · exact (hadded _ hkey).absorb hone hc
          · rcases hexplored'.target d hd c hc with hseen | hkey
            · exact .inl (.inr (.inr hseen))
            · exact (hright _ (.inl hkey)).absorb hone hc
        · rintro d (rfl | hd | hd) c hc
          · exact .inr (.inr (hall c hc))
          · exact .inr (.inl (hexplored.children d hd c hc))
          · exact .inr (.inr (hexplored'.children d hd c hc))
        · exact fun k hk => hexplored'.grows k (hexplored.grows k (hbase k hk))
        · exact fun k hk => hright k (hexplored'.known k hk)
        · rintro d (rfl | hd | hd)
          · exact ⟨visited, hown, fun k hk => .inl hk⟩
          · obtain ⟨atHand, hquiet, hk⟩ := hexplored.quiet d hd
            exact ⟨atHand, hquiet, fun k hin => hleft k (hk k hin)⟩
          · obtain ⟨atHand, hquiet, hk⟩ := hexplored'.quiet d hd
            exact ⟨atHand, hquiet, fun k hin => hright k (hk k hin)⟩
        · rintro d (rfl | hd | hd)
          · exact .refl
          · obtain ⟨t, ht, hreaches⟩ := hsound d hd
            exact .of_edge (.inl ((hrefers t).mpr ht)) hreaches
          · obtain ⟨c, hc, hreaches⟩ := hsound' d hd
            exact .of_edge (.inr hc) hreaches

/-- From nothing visited, a search that finds nothing has seen all it reaches. -/
theorem search_false [DecidableEq κ] (hone : OneNode walk) {fuel : Nat} {a : α}
    (h : search walk fuel a [] = some (false, visited')) {x : α} (hx : Reaches walk a x) :
    ∃ atHand, walk.own x atHand = some false ∧
      ∀ k ∈ atHand, ∃ d e, Reaches walk a d ∧ Refers walk d e ∧ walk.key e = k := by
  obtain ⟨seen, hexplored, ha, hsound⟩ := search_finds hone fuel a [] visited' h
  have hseen : seen x := by
    induction hx with
    | refl => exact ha
    | tail _ hedge ih =>
      rcases hedge with hrefers | hchild
      · exact (hexplored.target _ ih _ hrefers).resolve_right List.not_mem_nil
      · exact hexplored.children _ ih _ hchild
  obtain ⟨atHand, hown, hknown⟩ := hexplored.quiet x hseen
  refine ⟨atHand, hown, fun k hk => ?_⟩
  obtain ⟨d, e, hd, _, hrefers, hkey⟩ := (hknown k hk).resolve_left List.not_mem_nil
  exact ⟨d, e, hsound d hd, hrefers, hkey⟩

end Explored

end Explore
