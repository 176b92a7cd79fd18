import Mathlib.Data.List.Induction

/-!
# Lib.Association

Association lists, read by the first entry of a key.

* `lookup_mem`, `lookup_cons_of_none`, `lookup_of_mem`: entries and what is read.
* `settle`: of several candidates for a key the one they all are, if any. `mem_settle` says so of
  candidates in any order.
-/

namespace Association

section Lookup

variable {α β : Type} [BEq α] [LawfulBEq α]

theorem lookup_mem {key : α} {value : β} {l : List (α × β)}
    (h : l.lookup key = some value) : (key, value) ∈ l := by
  induction l with
  | nil => cases h
  | cons e l ih =>
    obtain ⟨k, v⟩ := e
    rw [List.lookup_cons] at h
    by_cases hk : key = k
    · subst hk
      simp only [BEq.rfl, Option.some.injEq] at h
      subst h
      exact List.mem_cons_self
    · simp only [beq_eq_false_iff_ne.mpr hk] at h
      exact List.mem_cons_of_mem _ (ih h)

theorem lookup_cons_of_none {key key' : α} {value value' : β}
    {l : List (α × β)} (hnone : l.lookup key = none) (h : l.lookup key' = some value') :
    List.lookup key' ((key, value) :: l) = some value' := by
  rw [List.lookup_cons]
  by_cases hk : key' = key
  · subst hk
    rw [hnone] at h
    cases h
  · simp only [beq_eq_false_iff_ne.mpr hk]
    exact h

@[simp] theorem lookup_cons_same {key : α} {value : β}
    {l : List (α × β)} : List.lookup key ((key, value) :: l) = some value := by
  rw [List.lookup_cons, BEq.rfl]

omit [LawfulBEq α] in
theorem lookup_map_value {γ : Type} (f : β → γ) (key : α) (l : List (α × β)) :
    (l.map fun e => (e.1, f e.2)).lookup key = (l.lookup key).map f := by
  induction l with
  | nil => rfl
  | cons e l ih =>
    rw [List.map_cons, List.lookup_cons, List.lookup_cons, ih]
    cases key == e.1 <;> rfl

theorem lookup_of_mem {key : α} {value : β} {l : List (α × β)} (hkeys : (l.map Prod.fst).Nodup)
    (h : (key, value) ∈ l) : l.lookup key = some value := by
  induction l with
  | nil => cases h
  | cons e l ih =>
    rw [List.map_cons, List.nodup_cons] at hkeys
    rcases List.mem_cons.mp h with rfl | h
    · exact lookup_cons_same
    · have hne : key ≠ e.1 := by
        intro heq
        exact hkeys.1 (heq ▸ List.mem_map_of_mem h)
      rw [List.lookup_cons, beq_eq_false_iff_ne.mpr hne]
      exact ih hkeys.2 h

end Lookup

/-! ## Agreement -/

section Agreement

variable {κ α : Type} [DecidableEq κ] [DecidableEq α]

/-- A candidate is taken as the first of its key; one that differs leaves the key without any. -/
def note (entries : List (κ × Option α)) (candidate : κ × α) : List (κ × Option α) :=
  match entries.lookup candidate.1 with
  | none => (candidate.1, some candidate.2) :: entries
  | some existing =>
    if existing = some candidate.2 then entries
    else entries.map fun entry => if entry.1 = candidate.1 then (entry.1, none) else entry

def settle (candidates : List (κ × α)) : List (κ × α) :=
  (candidates.foldl note []).filterMap fun entry => entry.2.map (entry.1, ·)

/-- What the candidates of a key come to. -/
def verdict (candidates : List (κ × α)) (key : κ) : Option (Option α) :=
  match (candidates.filter (·.1 = key)).map Prod.snd with
  | [] => none
  | value :: values => some (if ∀ other ∈ values, other = value then some value else none)

omit [DecidableEq α] in
theorem lookup_forget (entries : List (κ × Option α)) (key key' : κ) :
    (entries.map fun entry => if entry.1 = key then (entry.1, none) else entry).lookup key' =
      if key' = key then (entries.lookup key').map fun _ => none else entries.lookup key' := by
  induction entries with
  | nil => simp
  | cons entry entries ih =>
    obtain ⟨k, v⟩ := entry
    rw [List.map_cons, List.lookup_cons, List.lookup_cons, ih]
    by_cases hk : k = key
    · subst hk
      by_cases hk' : key' = k
      · subst hk'
        simp
      · simp only [if_pos, if_neg hk', beq_eq_false_iff_ne.mpr hk']
    · by_cases hk' : key' = k
      · subst hk'
        simp [hk]
      · simp only [if_neg hk, beq_eq_false_iff_ne.mpr hk']

theorem note_keys_nodup {entries : List (κ × Option α)} (h : (entries.map Prod.fst).Nodup)
    (candidate : κ × α) : ((note entries candidate).map Prod.fst).Nodup := by
  unfold note
  cases hlookup : entries.lookup candidate.1 with
  | none =>
    rw [List.map_cons, List.nodup_cons]
    refine ⟨fun hmem => ?_, h⟩
    obtain ⟨entry, hentry, heq⟩ := List.mem_map.mp hmem
    have hfound := lookup_of_mem h hentry
    rw [heq, hlookup] at hfound
    cases hfound
  | some existing =>
    by_cases hsame : existing = some candidate.2
    · simp only [if_pos hsame]
      exact h
    · simp only [if_neg hsame, List.map_map]
      have hkeys : (Prod.fst ∘ fun entry : κ × Option α =>
          if entry.1 = candidate.1 then (entry.1, none) else entry) = Prod.fst := by
        funext entry
        simp only [Function.comp_apply]
        split <;> rfl
      rw [hkeys]
      exact h

theorem verdict_append (candidates : List (κ × α)) (candidate : κ × α) (key : κ) :
    verdict (candidates ++ [candidate]) key =
      if key = candidate.1 then
        match verdict candidates key with
        | none => some (some candidate.2)
        | some existing => if existing = some candidate.2 then some existing else some none
      else verdict candidates key := by
  unfold verdict
  rw [List.filter_append, List.map_append]
  by_cases hkey : key = candidate.1
  · rw [if_pos hkey, List.filter_cons_of_pos (by simpa using hkey.symm)]
    cases (candidates.filter (·.1 = key)).map Prod.snd with
    | nil => simp
    | cons value values =>
      simp only [List.cons_append, List.filter_nil, List.map_cons, List.map_nil]
      by_cases hall : ∀ other ∈ values, other = value
      · by_cases hsame : value = candidate.2
        · have hall' : ∀ other ∈ values ++ [candidate.2], other = value := by
            intro other hother
            rcases List.mem_append.mp hother with hother | hother
            · exact hall other hother
            · rw [List.mem_singleton.mp hother, hsame]
          rw [if_pos hall, if_pos hall', if_pos (congrArg some hsame)]
        · have hall' : ¬ ∀ other ∈ values ++ [candidate.2], other = value := by
            intro h
            exact hsame (h candidate.2 (List.mem_append_right _ List.mem_cons_self)).symm
          rw [if_pos hall, if_neg hall', if_neg (by simpa using hsame)]
      · have hall' : ¬ ∀ other ∈ values ++ [candidate.2], other = value := by
          intro h
          exact hall fun other hother => h other (List.mem_append_left _ hother)
        simp [if_neg hall, if_neg hall']
  · rw [if_neg hkey, List.filter_cons_of_neg (by simpa using fun h => hkey h.symm)]
    simp

theorem lookup_note {entries : List (κ × Option α)} {candidates : List (κ × α)}
    (h : ∀ key, entries.lookup key = verdict candidates key) (candidate : κ × α) (key : κ) :
    (note entries candidate).lookup key = verdict (candidates ++ [candidate]) key := by
  rw [verdict_append, ← h]
  unfold note
  cases hlookup : entries.lookup candidate.1 with
  | none =>
    by_cases hkey : key = candidate.1
    · subst hkey
      simp [hlookup]
    · simp only [List.lookup_cons, beq_eq_false_iff_ne.mpr hkey, if_neg hkey]
  | some existing =>
    by_cases hsame : existing = some candidate.2
    · simp only [if_pos hsame]
      by_cases hkey : key = candidate.1
      · subst hkey
        simp [hlookup, hsame]
      · rw [if_neg hkey]
    · simp only [if_neg hsame, lookup_forget]
      by_cases hkey : key = candidate.1
      · subst hkey
        simp [hlookup, hsame]
      · rw [if_neg hkey, if_neg hkey]

theorem foldl_note (candidates : List (κ × α)) :
    ((candidates.foldl note []).map Prod.fst).Nodup ∧
      ∀ key, (candidates.foldl note []).lookup key = verdict candidates key := by
  induction candidates using List.reverseRecOn with
  | nil => exact ⟨List.nodup_nil, fun _ => rfl⟩
  | append_singleton candidates candidate ih =>
    rw [List.foldl_append]
    exact ⟨note_keys_nodup ih.1 candidate, lookup_note ih.2 candidate⟩

theorem verdict_eq_some {candidates : List (κ × α)} {key : κ} {value : α} :
    verdict candidates key = some (some value) ↔
      (key, value) ∈ candidates ∧ ∀ candidate ∈ candidates, candidate.1 = key →
        candidate.2 = value := by
  have hmem (other : α) : other ∈ (candidates.filter (·.1 = key)).map Prod.snd ↔
      (key, other) ∈ candidates := by
    rw [List.mem_map]
    constructor
    · intro h
      obtain ⟨candidate, hcandidate, rfl⟩ := h
      obtain ⟨hcandidate, hkey⟩ := List.mem_filter.mp hcandidate
      rw [← of_decide_eq_true hkey]
      exact hcandidate
    · intro h
      exact ⟨(key, other), List.mem_filter.mpr ⟨h, by simp⟩, rfl⟩
  have hall : (∀ candidate ∈ candidates, candidate.1 = key → candidate.2 = value) ↔
      ∀ other ∈ (candidates.filter (·.1 = key)).map Prod.snd, other = value := by
    constructor
    · intro h other hother
      exact h (key, other) ((hmem other).mp hother) rfl
    · intro h candidate hcandidate hkey
      exact h candidate.2 ((hmem candidate.2).mpr (hkey ▸ hcandidate))
  rw [hall, ← hmem, verdict]
  cases (candidates.filter (·.1 = key)).map Prod.snd with
  | nil => simp
  | cons first rest =>
    dsimp only
    by_cases hrest : ∀ other ∈ rest, other = first
    · rw [if_pos hrest, Option.some.injEq, Option.some.injEq, List.forall_mem_cons]
      constructor
      · rintro rfl
        exact ⟨List.mem_cons_self, rfl, hrest⟩
      · intro h
        exact h.2.1
    · rw [if_neg hrest, List.forall_mem_cons]
      constructor
      · intro h
        cases Option.some.inj h
      · intro h
        obtain ⟨-, rfl, hall⟩ := h
        exact absurd hall hrest

/-- A key has the value all its candidates have. -/
theorem mem_settle {candidates : List (κ × α)} {key : κ} {value : α} :
    (key, value) ∈ settle candidates ↔
      (key, value) ∈ candidates ∧ ∀ candidate ∈ candidates, candidate.1 = key →
        candidate.2 = value := by
  obtain ⟨hkeys, hlookup⟩ := foldl_note candidates
  rw [← verdict_eq_some, ← hlookup, settle, List.mem_filterMap]
  constructor
  · intro h
    obtain ⟨⟨key', found⟩, hentry, heq⟩ := h
    obtain ⟨value', hfound, heq⟩ := Option.map_eq_some_iff.mp heq
    obtain ⟨rfl, rfl⟩ : key' = key ∧ value' = value := by simpa using heq
    have hfound : found = some value' := hfound
    subst hfound
    exact lookup_of_mem hkeys hentry
  · intro h
    exact ⟨(key, some value), lookup_mem h, rfl⟩

end Agreement

end Association
