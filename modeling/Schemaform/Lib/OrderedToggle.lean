import Schemaform.Lib.ListEdit
import Mathlib.Data.List.Sort

/-!
# Lib.OrderedToggle

Membership toggled in a list kept in the order of its keys.

* `toggle`: a key taken out where it is in, put in order where it is not.
* `mem_toggle`, `toggle_sorted`, `toggle_toggle`: the list is a set of keys in order.
* `mem_foldl_toggle`, `foldl_toggle_nil`: after a run, the keys toggled an odd number of times.
* `Toggled`: the same on entries that carry a key, others among them left where they are;
  `Toggled.keyed` says what it does to entries in strict key order.
-/

namespace OrderedToggle

variable {κ : Type} [LinearOrder κ]

def toggle (k : κ) (ks : List κ) : List κ :=
  if k ∈ ks then ks.filter (· ≠ k) else ks.orderedInsert (· ≤ ·) k

variable {j k : κ} {ks : List κ}

theorem mem_toggle : j ∈ toggle k ks ↔ (j ∈ ks ↔ j ≠ k) := by
  unfold toggle
  split
  · rename_i hk
    simp only [List.mem_filter, decide_eq_true_eq]
    by_cases hj : j = k
    · simp [hj, hk]
    · simp [hj]
  · rename_i hk
    rw [List.mem_orderedInsert]
    by_cases hj : j = k
    · simp [hj, hk]
    · simp [hj]

theorem toggle_sorted (h : ks.Pairwise (· < ·)) : (toggle k ks).Pairwise (· < ·) := by
  unfold toggle
  split
  · exact h.sublist List.filter_sublist
  · rename_i hk
    have hle := (h.imp fun hlt => le_of_lt hlt).orderedInsert k
    have hne : (ks.orderedInsert (· ≤ ·) k).Nodup :=
      (List.perm_orderedInsert _ k ks).nodup_iff.mpr
        (List.nodup_cons.mpr ⟨hk, h.imp fun hlt => ne_of_lt hlt⟩)
    exact (hle.and hne).imp fun ⟨hle, hne⟩ => lt_of_le_of_ne hle hne

/-- Strictly sorted lists with the same members are the same. -/
theorem eq_of_mem_iff {ls : List κ} (hk : ks.Pairwise (· < ·)) (hl : ls.Pairwise (· < ·))
    (h : ∀ j, j ∈ ks ↔ j ∈ ls) : ks = ls := by
  have hperm : ks.Perm ls := (List.perm_ext_iff_of_nodup (hk.imp fun hlt => ne_of_lt hlt)
    (hl.imp fun hlt => ne_of_lt hlt)).mpr h
  exact hperm.eq_of_pairwise (fun a b _ _ hab hba => absurd hab (lt_asymm hba)) hk hl

theorem toggle_toggle (h : ks.Pairwise (· < ·)) : toggle k (toggle k ks) = ks := by
  refine eq_of_mem_iff (toggle_sorted (toggle_sorted h)) h fun j => ?_
  rw [mem_toggle, mem_toggle]
  by_cases hj : j = k <;> simp [hj]

theorem foldl_toggle_sorted (toggles : List κ) (h : ks.Pairwise (· < ·)) :
    (toggles.foldl (fun ks k => toggle k ks) ks).Pairwise (· < ·) := by
  induction toggles generalizing ks with
  | nil => exact h
  | cons k toggles ih => exact ih (toggle_sorted h)

/-- A key changes sides with each of its toggles. -/
theorem mem_foldl_toggle (toggles : List κ) :
    j ∈ toggles.foldl (fun ks k => toggle k ks) ks ↔ (j ∈ ks ↔ toggles.count j % 2 = 0) := by
  induction toggles generalizing ks with
  | nil => simp
  | cons k toggles ih =>
    rw [List.foldl_cons, ih, mem_toggle, List.count_cons]
    by_cases hj : k = j
    · have hparity : (toggles.count j + 1) % 2 = 0 ↔ ¬ toggles.count j % 2 = 0 := by omega
      simp only [hj, BEq.rfl, if_true, hparity, ne_eq, not_true_eq_false, iff_false]
      tauto
    · have hj' : j ≠ k := fun h => hj h.symm
      simp only [beq_iff_eq, hj, if_false, Nat.add_zero, hj', ne_eq, not_false_eq_true, iff_true]

theorem foldl_toggle_nil {n : Nat} (toggles : List Nat) (h : ∀ k ∈ toggles, k < n) :
    toggles.foldl (fun ks k => toggle k ks) [] =
      (List.range n).filter fun k => decide (toggles.count k % 2 = 1) := by
  refine eq_of_mem_iff (foldl_toggle_sorted toggles .nil)
    (List.pairwise_lt_range.sublist List.filter_sublist) fun j => ?_
  rw [mem_foldl_toggle, List.mem_filter, List.mem_range, decide_eq_true_eq]
  simp only [List.not_mem_nil, false_iff]
  constructor
  · intro hodd
    have hpos : 0 < toggles.count j := by omega
    exact ⟨h j (List.count_pos_iff.mp hpos), by omega⟩
  · rintro ⟨-, hodd⟩
    omega

/-! ## Entries with keys -/

variable {α : Type}

/-- The entry taken out with all of its key, or put in before the first later one. -/
inductive Toggled (key : α → Option κ) (a : α) (k : κ) : List α → List α → Prop where
  | removed {l : List α} (present : ∃ b ∈ l, key b = some k) :
      Toggled key a k l (l.filter fun b => decide (key b ≠ some k))
  | inserted {before after : List α} (absent : ∀ b ∈ before ++ after, key b ≠ some k)
      (earlier : ∀ b ∈ before, ∀ j, key b = some j → ¬ k < j)
      (later : ∀ b ∈ after.head?, ∃ j, key b = some j ∧ k < j) :
      Toggled key a k (before ++ after) (before ++ a :: after)

variable {key : α → Option κ} {R : α → κ → Prop} {a : α} {l l' : List α}

omit [LinearOrder κ] in
theorem mem_keys (hR : ∀ a k, R a k → key a = some k) (h : List.Forall₂ R l ks) :
    (∃ b ∈ l, key b = some k) ↔ k ∈ ks := by
  induction h with
  | nil => simp
  | cons hab _ ih => simp [hR _ _ hab, ih, eq_comm]

theorem forall₂_filter (hR : ∀ a k, R a k → key a = some k) (h : List.Forall₂ R l ks) :
    List.Forall₂ R (l.filter fun b => decide (key b ≠ some k)) (ks.filter (· ≠ k)) := by
  induction h with
  | nil => exact .nil
  | @cons b j _ _ hab _ ih =>
    have hkey := hR _ _ hab
    by_cases hj : j = k
    · rw [List.filter_cons_of_neg (by simp [hkey, hj]), List.filter_cons_of_neg (by simp [hj])]
      exact ih
    · rw [List.filter_cons_of_pos (by simp [hkey, hj]), List.filter_cons_of_pos (by simp [hj])]
      exact .cons hab ih

theorem orderedInsert_append {before after : List κ} (hbefore : ∀ j ∈ before, j < k)
    (hafter : ∀ j ∈ after.head?, k < j) :
    (before ++ after).orderedInsert (· ≤ ·) k = before ++ k :: after := by
  induction before with
  | nil =>
    cases after with
    | nil => rfl
    | cons j after => exact if_pos (le_of_lt (hafter j rfl))
  | cons j before ih =>
    have hj := hbefore j List.mem_cons_self
    rw [List.cons_append, List.orderedInsert_cons, if_neg (not_le.mpr hj),
      ih fun i hi => hbefore i (List.mem_cons_of_mem _ hi)]
    rfl

/-- On entries in step with keys, the entries are toggled as the keys are. -/
theorem Toggled.keyed (h : Toggled key a k l l') (hR : ∀ a k, R a k → key a = some k)
    (ha : R a k) (hl : List.Forall₂ R l ks) : List.Forall₂ R l' (toggle k ks) := by
  unfold toggle
  cases h with
  | removed present =>
    rw [if_pos ((mem_keys hR hl).mp present)]
    exact forall₂_filter hR hl
  | @inserted before after absent earlier later =>
    have habsent : k ∉ ks := fun hk => by
      obtain ⟨b, hb, hkey⟩ := (mem_keys hR hl).mpr hk
      exact absent b hb hkey
    obtain ⟨ks₁, ks₂, rfl, h₁, h₂⟩ := ListEdit.forall₂_append_left hl
    have hbefore : ∀ j ∈ ks₁, j < k := by
      intro j hj
      obtain ⟨b, hb, hbj⟩ := ListEdit.mem_of_forall₂_right h₁ hj
      have hle := not_lt.mp (earlier b hb j (hR b j hbj))
      exact lt_of_le_of_ne hle fun heq => habsent (List.mem_append_left _ (heq ▸ hj))
    have hafter : ∀ j ∈ ks₂.head?, k < j := by
      intro j hj
      cases h₂ with
      | nil => cases hj
      | @cons b i after ks₂ hbi _ =>
        obtain rfl : i = j := Option.some.inj hj
        obtain ⟨i', hkey, hlt⟩ := later b rfl
        rwa [Option.some.inj (hkey.symm.trans (hR b i hbi))] at hlt
    rw [if_neg habsent, orderedInsert_append hbefore hafter]
    exact List.rel_append h₁ (.cons ha h₂)

/-- Entries in strict key order are in step with their keys again after two toggles of one key. -/
theorem Toggled.twice {a' : α} {l'' : List α} (h : Toggled key a k l l')
    (h' : Toggled key a' k l' l'') (hR : ∀ a k, R a k → key a = some k) (ha : R a k) (ha' : R a' k)
    (hl : List.Forall₂ R l ks) (hk : ks.Pairwise (· < ·)) : List.Forall₂ R l'' ks := by
  have htwice := h'.keyed hR ha' (h.keyed hR ha hl)
  rwa [toggle_toggle hk] at htwice

end OrderedToggle
