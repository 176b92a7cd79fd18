import Mathlib.Data.List.Sort
import Mathlib.Data.String.Basic

/-!
# Lib.SortedMap

Ordered association lists: the entries of a map in strictly increasing key order, the way an
ordered tree map iterates them.

* `get`, `insert`, `set`, `erase`: lookup, insertion or replacement, replacement of a present
  key, removal.
* `Sorted`: the representation invariant. Every operation keeps it.
* `ext_get`: two sorted lists with the same lookups are equal.
* `ofEntries`: the entries of a list inserted one after another.
* `forall₂_of_get`: two sorted lists of one length, each lookup of the first answered in the
  second, line up entry by entry.
-/

namespace SortedMap

universe u v

variable {α : Type u} {β γ : Type v} [LinearOrder α]

def get (key : α) : List (α × β) → Option β
  | [] => none
  | (k, v) :: rest => if k = key then some v else get key rest

def insert (key : α) (value : β) : List (α × β) → List (α × β)
  | [] => [(key, value)]
  | (k, v) :: rest =>
    if key = k then (key, value) :: rest
    else if key < k then (key, value) :: (k, v) :: rest
    else (k, v) :: insert key value rest

/-- Replace the value of a present key; the list is unchanged when the key is absent. -/
def set (key : α) (value : β) : List (α × β) → List (α × β)
  | [] => []
  | (k, v) :: rest => if k = key then (k, value) :: rest else (k, v) :: set key value rest

def erase (key : α) : List (α × β) → List (α × β)
  | [] => []
  | (k, v) :: rest => if k = key then rest else (k, v) :: erase key rest

/-- Keys strictly increase. -/
def Sorted (l : List (α × β)) : Prop := l.Pairwise fun a b => a.1 < b.1

instance (l : List (α × β)) : Decidable (Sorted l) :=
  inferInstanceAs (Decidable (l.Pairwise fun a b => a.1 < b.1))

@[simp] theorem get_nil (key : α) : get key ([] : List (α × β)) = none := rfl

theorem get_cons (key : α) (e : α × β) (l : List (α × β)) :
    get key (e :: l) = if e.1 = key then some e.2 else get key l := rfl

theorem get_eq_none_iff {key : α} {l : List (α × β)} :
    get key l = none ↔ ∀ e ∈ l, e.1 ≠ key := by
  induction l with
  | nil => simp
  | cons e l ih =>
    rw [get_cons]
    by_cases h : e.1 = key
    · simp [h]
    · simp [h, ih]

theorem mem_of_get {key : α} {value : β} {l : List (α × β)} (h : get key l = some value) :
    (key, value) ∈ l := by
  induction l with
  | nil => simp at h
  | cons e l ih =>
    rw [get_cons] at h
    split at h
    · rename_i hk
      cases h
      subst hk
      exact List.mem_cons_self
    · exact List.mem_cons_of_mem _ (ih h)

theorem Sorted.tail {e : α × β} {l : List (α × β)} (h : Sorted (e :: l)) : Sorted l :=
  List.Pairwise.of_cons h

theorem get_of_mem {key : α} {value : β} {l : List (α × β)} (hs : Sorted l)
    (h : (key, value) ∈ l) : get key l = some value := by
  induction l with
  | nil => cases h
  | cons e l ih =>
    rw [get_cons]
    cases h with
    | head => simp
    | tail _ h =>
      have hlt : e.1 < key := List.rel_of_pairwise_cons hs h
      rw [if_neg (ne_of_lt hlt)]
      exact ih hs.tail h

/-! ## Lookup after an update -/

theorem get_insert_self (key : α) (value : β) (l : List (α × β)) :
    get key (insert key value l) = some value := by
  induction l with
  | nil => simp [insert, get]
  | cons e l ih =>
    obtain ⟨k, v⟩ := e
    simp only [insert]
    split
    · simp [get_cons]
    · split
      · simp [get_cons]
      · rename_i hne _
        rw [get_cons, if_neg (fun h => hne h.symm)]
        exact ih

theorem get_insert_ne {key key' : α} (h : key ≠ key') (value : β) (l : List (α × β)) :
    get key' (insert key value l) = get key' l := by
  induction l with
  | nil => simp [insert, get, h]
  | cons e l ih =>
    obtain ⟨k, v⟩ := e
    simp only [insert]
    split
    · rename_i hk
      subst hk
      simp [get_cons, h]
    · split
      · simp [get_cons, h]
      · simp only [get_cons, ih]

theorem get_set_self {key : α} {l : List (α × β)} (value : β) (h : (get key l).isSome) :
    get key (set key value l) = some value := by
  induction l with
  | nil => simp at h
  | cons e l ih =>
    obtain ⟨k, v⟩ := e
    simp only [set]
    split
    · rename_i hk; simp [get_cons, hk]
    · rename_i hk
      rw [get_cons, if_neg hk] at h
      rw [get_cons, if_neg hk]
      exact ih h

theorem get_set_ne {key key' : α} (h : key ≠ key') (value : β) (l : List (α × β)) :
    get key' (set key value l) = get key' l := by
  induction l with
  | nil => rfl
  | cons e l ih =>
    obtain ⟨k, v⟩ := e
    simp only [set]
    split
    · rename_i hk; subst hk; simp [get_cons, h]
    · simp only [get_cons, ih]

theorem get_erase_self {key : α} {l : List (α × β)} (hs : Sorted l) :
    get key (erase key l) = none := by
  induction l with
  | nil => rfl
  | cons e l ih =>
    obtain ⟨k, v⟩ := e
    simp only [erase]
    split
    · rename_i hk
      subst hk
      rw [get_eq_none_iff]
      intro e he
      exact ne_of_gt (List.rel_of_pairwise_cons hs he)
    · rename_i hk
      rw [get_cons, if_neg hk]
      exact ih hs.tail

theorem get_erase_ne {key key' : α} (h : key ≠ key') (l : List (α × β)) :
    get key' (erase key l) = get key' l := by
  induction l with
  | nil => rfl
  | cons e l ih =>
    obtain ⟨k, v⟩ := e
    simp only [erase]
    split
    · rename_i hk; subst hk; simp [get_cons, h]
    · simp only [get_cons, ih]

/-! ## The invariant is kept -/

theorem insert_last {key : α} {value : β} {l : List (α × β)} (h : ∀ e ∈ l, e.1 < key) :
    insert key value l = l ++ [(key, value)] := by
  induction l with
  | nil => rfl
  | cons e l ih =>
    have hlt := h e List.mem_cons_self
    rw [insert, if_neg hlt.ne', if_neg hlt.not_gt, ih fun d hd => h d (List.mem_cons_of_mem _ hd)]
    rfl

theorem mem_insert {key : α} {value : β} {l : List (α × β)} {e : α × β}
    (h : e ∈ insert key value l) : e = (key, value) ∨ e ∈ l := by
  induction l with
  | nil => simpa [insert] using h
  | cons d l ih =>
    obtain ⟨k, v⟩ := d
    simp only [insert] at h
    split at h
    · rcases List.mem_cons.mp h with h | h
      · exact .inl h
      · exact .inr (List.mem_cons_of_mem _ h)
    · split at h
      · rcases List.mem_cons.mp h with h | h
        · exact .inl h
        · exact .inr h
      · rcases List.mem_cons.mp h with h | h
        · exact .inr (h ▸ List.mem_cons_self)
        · exact (ih h).imp_right (List.mem_cons_of_mem _)

theorem Sorted.insert (key : α) (value : β) {l : List (α × β)} (hs : Sorted l) :
    Sorted (insert key value l) := by
  induction l with
  | nil => exact List.pairwise_singleton _ _
  | cons d l ih =>
    obtain ⟨k, v⟩ := d
    have hk : ∀ e ∈ l, k < e.1 := fun e he => List.rel_of_pairwise_cons hs he
    simp only [SortedMap.insert]
    split
    · rename_i h
      subst h
      exact hs.tail.cons hk
    · split
      · rename_i hlt
        refine List.Pairwise.cons (fun e he => ?_) hs
        rcases List.mem_cons.mp he with rfl | he
        · exact hlt
        · exact hlt.trans (hk e he)
      · rename_i hne hlt
        refine List.Pairwise.cons (fun e he => ?_) (ih hs.tail)
        rcases mem_insert he with rfl | he
        · exact lt_of_le_of_ne (not_lt.mp hlt) (fun h => hne h.symm)
        · exact hk e he

theorem map_fst_set (key : α) (value : β) (l : List (α × β)) :
    (set key value l).map Prod.fst = l.map Prod.fst := by
  induction l with
  | nil => rfl
  | cons d l ih =>
    obtain ⟨k, v⟩ := d
    simp only [set]
    split
    · rfl
    · simp only [List.map_cons, ih]

theorem sorted_iff_map {l : List (α × β)} : Sorted l ↔ (l.map Prod.fst).Pairwise (· < ·) :=
  List.pairwise_map.symm

theorem Sorted.set (key : α) (value : β) {l : List (α × β)} (hs : Sorted l) :
    Sorted (set key value l) := by
  rw [sorted_iff_map, map_fst_set]
  exact sorted_iff_map.mp hs

theorem erase_sublist (key : α) (l : List (α × β)) : (erase key l).Sublist l := by
  induction l with
  | nil => exact .slnil
  | cons d l ih =>
    obtain ⟨k, v⟩ := d
    simp only [erase]
    split
    · exact List.sublist_cons_self _ _
    · exact ih.cons_cons _

theorem Sorted.erase (key : α) {l : List (α × β)} (hs : Sorted l) : Sorted (erase key l) :=
  List.Pairwise.sublist (erase_sublist key l) hs

theorem mem_set {key : α} {value : β} {l : List (α × β)} {e : α × β}
    (h : e ∈ set key value l) : e.2 = value ∨ e ∈ l := by
  induction l with
  | nil => cases h
  | cons d l ih =>
    obtain ⟨k, v⟩ := d
    simp only [set] at h
    split at h
    · rcases List.mem_cons.mp h with rfl | h
      · exact .inl rfl
      · exact .inr (List.mem_cons_of_mem _ h)
    · rcases List.mem_cons.mp h with rfl | h
      · exact .inr List.mem_cons_self
      · exact (ih h).imp_right (List.mem_cons_of_mem _)

/-! ## Sorted lists as maps -/

theorem Sorted.nodup {l : List (α × β)} (hs : Sorted l) : l.Nodup :=
  List.Pairwise.imp (fun h e => absurd (congrArg Prod.fst e) (ne_of_lt h)) hs

theorem keys_eq_of_subset {l : List (α × β)} {m : List (α × γ)} (hl : Sorted l) (hm : Sorted m)
    (hlen : l.length = m.length) (hsub : ∀ e ∈ l, (get e.1 m).isSome) :
    l.map Prod.fst = m.map Prod.fst := by
  have hl' := sorted_iff_map.mp hl
  have hm' := sorted_iff_map.mp hm
  have hnodup : (l.map Prod.fst).Nodup := hl'.imp ne_of_lt
  have hincl : l.map Prod.fst ⊆ m.map Prod.fst := by
    intro k hk
    obtain ⟨e, he, rfl⟩ := List.mem_map.mp hk
    obtain ⟨v, hv⟩ := Option.isSome_iff_exists.mp (hsub e he)
    exact List.mem_map.mpr ⟨_, mem_of_get hv, rfl⟩
  have hperm : (l.map Prod.fst).Perm (m.map Prod.fst) :=
    (List.subperm_of_subset hnodup hincl).perm_of_length_le (by simp [hlen])
  exact hperm.eq_of_pairwise (fun a b _ _ hab hba => absurd hab (lt_asymm hba)) hl' hm'

/-- Entries of two sorted lists of one length line up as soon as each lookup of the first is
answered in the second. -/
theorem forall₂_of_get {P : β → γ → Prop} {l : List (α × β)} {m : List (α × γ)}
    (hl : Sorted l) (hm : Sorted m) (hlen : l.length = m.length)
    (h : ∀ e ∈ l, ∃ w, get e.1 m = some w ∧ P e.2 w) :
    List.Forall₂ (fun a b => a.1 = b.1 ∧ P a.2 b.2) l m := by
  have hkeys := keys_eq_of_subset hl hm hlen (fun e he => by
    obtain ⟨w, hw, _⟩ := h e he
    simp [hw])
  rw [List.forall₂_iff_get]
  refine ⟨hlen, fun i hi hi' => ?_⟩
  have hk : (l.get ⟨i, hi⟩).1 = (m.get ⟨i, hi'⟩).1 := by
    have := congrArg (·[i]?) hkeys
    simpa [hi, hi'] using this
  obtain ⟨w, hw, hP⟩ := h (l.get ⟨i, hi⟩) (List.get_mem _ _)
  have hget : get (l.get ⟨i, hi⟩).1 m = some (m.get ⟨i, hi'⟩).2 := by
    rw [hk]
    exact get_of_mem hm (List.get_mem _ _)
  rw [hget] at hw
  cases hw
  exact ⟨hk, hP⟩

theorem get_of_forall₂ {P : β → γ → Prop} {l : List (α × β)} {m : List (α × γ)}
    (h : List.Forall₂ (fun a b => a.1 = b.1 ∧ P a.2 b.2) l m) (key : α) :
    Option.Rel P (get key l) (get key m) := by
  induction h with
  | nil => exact .none
  | @cons a b l m hab _ ih =>
    rw [get_cons, get_cons, hab.1]
    split
    · exact .some hab.2
    · exact ih

/-- Replacing a value by a related one relates the entries. -/
theorem forall₂_set {P : β → β → Prop} (hrefl : ∀ b, P b b) {key : α} {old new : β}
    {l : List (α × β)} (h : get key l = some old) (hP : P old new) :
    List.Forall₂ (fun a b => a.1 = b.1 ∧ P a.2 b.2) l (set key new l) := by
  induction l with
  | nil => cases h
  | cons e l ih =>
    obtain ⟨k, v⟩ := e
    rw [get_cons] at h
    simp only [set]
    split
    · rename_i hk
      rw [if_pos hk] at h
      cases h
      exact .cons ⟨rfl, hP⟩ (List.forall₂_same.mpr fun a _ => ⟨rfl, hrefl a.2⟩)
    · rename_i hk
      rw [if_neg hk] at h
      exact .cons ⟨rfl, hrefl v⟩ (ih h)

/-- A list whose keys all occur in another is no longer. -/
theorem length_le_of_keys {l : List (α × β)} {m : List (α × γ)} (hl : Sorted l)
    (h : ∀ key, (get key l).isSome → (get key m).isSome) : l.length ≤ m.length := by
  have hnodup : (l.map Prod.fst).Nodup := (sorted_iff_map.mp hl).imp ne_of_lt
  have hincl : l.map Prod.fst ⊆ m.map Prod.fst := by
    intro k hk
    obtain ⟨e, he, rfl⟩ := List.mem_map.mp hk
    have hm := h e.1 (by rw [get_of_mem hl he]; rfl)
    obtain ⟨v, hv⟩ := Option.isSome_iff_exists.mp hm
    exact List.mem_map.mpr ⟨_, mem_of_get hv, rfl⟩
  simpa using (List.subperm_of_subset hnodup hincl).length_le

/-- Sorted lists with the same lookups are equal. -/
theorem ext_get {l m : List (α × β)} (hl : Sorted l) (hm : Sorted m)
    (h : ∀ key, get key l = get key m) : l = m := by
  refine ((List.perm_ext_iff_of_nodup hl.nodup hm.nodup).mpr fun e => ?_).eq_of_pairwise
    (fun a b _ _ hab hba => absurd hab (lt_asymm hba)) hl hm
  constructor
  · intro he; exact mem_of_get ((h e.1) ▸ get_of_mem hl he)
  · intro he; exact mem_of_get ((h e.1).symm ▸ get_of_mem hm he)

/-! ## From entries in any order -/

/-- The entries inserted one after another, so the last one of a key stays. -/
def ofEntries (entries : List (α × β)) : List (α × β) :=
  entries.foldl (fun map entry => insert entry.1 entry.2 map) []

theorem sorted_foldl_insert (entries : List (α × β)) {l : List (α × β)} (hs : Sorted l) :
    Sorted (entries.foldl (fun map entry => insert entry.1 entry.2 map) l) := by
  induction entries generalizing l with
  | nil => exact hs
  | cons entry entries ih => exact ih (hs.insert entry.1 entry.2)

theorem sorted_ofEntries (entries : List (α × β)) : Sorted (ofEntries entries) :=
  sorted_foldl_insert entries .nil

theorem insert_subperm (key : α) (value : β) (l : List (α × β)) :
    (insert key value l).Subperm ((key, value) :: l) := by
  induction l with
  | nil => exact List.Subperm.refl _
  | cons e l ih =>
    rw [insert]
    by_cases heq : key = e.1
    · rw [if_pos heq]
      exact (List.Sublist.cons_cons _ (List.sublist_cons_self e l)).subperm
    · rw [if_neg heq]
      by_cases hlt : key < e.1
      · rw [if_pos hlt]
      · rw [if_neg hlt]
        exact ((List.subperm_cons e).mpr ih).trans (List.Perm.swap _ _ _).subperm

theorem insert_perm {key : α} {l : List (α × β)} (h : ∀ e ∈ l, e.1 ≠ key) (value : β) :
    (insert key value l).Perm ((key, value) :: l) := by
  induction l with
  | nil => exact List.Perm.refl _
  | cons e l ih =>
    rw [insert, if_neg (h e List.mem_cons_self).symm]
    by_cases hlt : key < e.1
    · rw [if_pos hlt]
    · rw [if_neg hlt]
      have hrest := ih fun d hd => h d (List.mem_cons_of_mem _ hd)
      exact (hrest.cons e).trans (List.Perm.swap _ _ _)

theorem foldl_insert_subperm (entries : List (α × β)) (l : List (α × β)) :
    (entries.foldl (fun map entry => insert entry.1 entry.2 map) l).Subperm (entries ++ l) := by
  induction entries generalizing l with
  | nil => exact List.Subperm.refl _
  | cons entry entries ih =>
    have hone := (List.subperm_append_left entries).mpr (insert_subperm entry.1 entry.2 l)
    exact ((ih _).trans hone).trans List.perm_middle.subperm

theorem ofEntries_subperm (entries : List (α × β)) : (ofEntries entries).Subperm entries := by
  have h := foldl_insert_subperm entries []
  rwa [List.append_nil] at h

theorem foldl_insert_perm {entries : List (α × β)} (hnodup : (entries.map Prod.fst).Nodup)
    {l : List (α × β)} (hfresh : ∀ e ∈ l, ∀ entry ∈ entries, e.1 ≠ entry.1) :
    (entries.foldl (fun map entry => insert entry.1 entry.2 map) l).Perm (entries ++ l) := by
  induction entries generalizing l with
  | nil => exact List.Perm.refl _
  | cons entry entries ih =>
    obtain ⟨hnew, hnodup⟩ := List.nodup_cons.mp hnodup
    have hinsert := insert_perm (fun e he => hfresh e he entry List.mem_cons_self) entry.2
    refine (ih hnodup fun e he other hother => ?_).trans
      ((hinsert.append_left entries).trans List.perm_middle)
    rcases mem_insert he with rfl | he
    · exact fun hkey => hnew (List.mem_map.mpr ⟨other, hother, hkey.symm⟩)
    · exact hfresh e he other (List.mem_cons_of_mem _ hother)

theorem ofEntries_perm {entries : List (α × β)} (hnodup : (entries.map Prod.fst).Nodup) :
    (ofEntries entries).Perm entries := by
  have h := foldl_insert_perm hnodup (l := []) fun e he => absurd he List.not_mem_nil
  rwa [List.append_nil] at h

theorem get_foldl_insert {entries : List (α × β)} (hnodup : (entries.map Prod.fst).Nodup)
    (l : List (α × β)) (key : α) :
    get key (entries.foldl (fun map entry => insert entry.1 entry.2 map) l) =
      (entries.lookup key).or (get key l) := by
  induction entries generalizing l with
  | nil => simp
  | cons entry entries ih =>
    obtain ⟨hfresh, hnodup⟩ := List.nodup_cons.mp hnodup
    rw [List.foldl_cons, ih hnodup, List.lookup_cons]
    by_cases hkey : key = entry.1
    · subst hkey
      have hnone : entries.lookup entry.1 = none := by
        rw [List.lookup_eq_none_iff]
        intro e he
        rw [bne_iff_ne]
        intro hkey
        exact hfresh (List.mem_map.mpr ⟨e, he, hkey.symm⟩)
      rw [hnone, get_insert_self, beq_self_eq_true]
      rfl
    · rw [get_insert_ne (Ne.symm hkey), beq_eq_false_iff_ne.mpr hkey]

theorem get_ofEntries {entries : List (α × β)} (hnodup : (entries.map Prod.fst).Nodup) (key : α) :
    get key (ofEntries entries) = entries.lookup key := by
  rw [ofEntries, get_foldl_insert hnodup, get_nil, Option.or_none]

end SortedMap
