import Mathlib.Data.List.Induction
import Mathlib.Data.List.Forall2
import Mathlib.Data.List.InsertIdx
import Mathlib.Data.List.Nodup
import Mathlib.Data.List.Perm.Subperm
import Mathlib.Order.Nat

/-!
# Lib.ListEdit

Edits of a list at a position, and two lists edited alike.

* `swap`, `eraseIndices`: exchange two entries, drop the entries at given positions.
* `mem_modify`: an entry of a modified list is the modified one or an old one elsewhere.
* `forall₂_insertIdx`, `_eraseIdx`, `_swap`, `_eraseIndices`: lists in step stay in step.
* `indicesWhere`: the positions of entries of a kind, erased or inserted before.
* `nodup_*`, `mem_*`: what the edits do to membership and repetition.
* `flatMap_subperm`, `flatMap_subperm_of_keyed`: what is gathered from fewer entries.
-/

namespace ListEdit

universe u v

variable {α : Type u} {β : Type v}

def swap (l : List α) (i j : Nat) : List α :=
  match l[i]?, l[j]? with
  | some a, some b => (l.set i b).set j a
  | _, _ => l

/-- Drop the entries at the positions, the last one first. -/
def eraseIndices (l : List α) (indices : List Nat) : List α := indices.reverse.foldl List.eraseIdx l

/-! ## One entry -/

theorem mem_modify {f : α → α} {i : Nat} {l : List α} {a : α} (h : a ∈ l.modify i f) :
    (∃ b, l[i]? = some b ∧ a = f b) ∨ ∃ j, j ≠ i ∧ l[j]? = some a := by
  obtain ⟨j, hj⟩ := List.mem_iff_getElem?.mp h
  rw [List.getElem?_modify, Option.map_eq_map, Option.map_eq_some_iff] at hj
  obtain ⟨b, hb, hab⟩ := hj
  by_cases hij : i = j
  · subst hij
    rw [if_pos rfl] at hab
    exact .inl ⟨b, hb, hab.symm⟩
  · rw [if_neg hij] at hab
    exact .inr ⟨j, fun h => hij h.symm, hab ▸ hb⟩

theorem modify_append (f : α → α) (l : List α) (a : α) (m : List α) :
    (l ++ a :: m).modify l.length f = l ++ f a :: m := by
  induction l with
  | nil => rfl
  | cons b l ih => simpa using ih

theorem map_modify {γ : Type v} {f : α → α} {g : α → γ} (hg : ∀ a, g (f a) = g a) (i : Nat)
    (l : List α) : (l.modify i f).map g = l.map g := by
  induction l generalizing i with
  | nil => simp
  | cons a l ih =>
    cases i with
    | zero => simp [hg]
    | succ i => simp [ih]

theorem map_modify_comm {γ : Type v} {f : α → α} {f' : γ → γ} {g : α → γ}
    (hg : ∀ a, g (f a) = f' (g a)) (i : Nat) (l : List α) :
    (l.modify i f).map g = (l.map g).modify i f' := by
  induction l generalizing i with
  | nil => simp
  | cons a l ih =>
    cases i with
    | zero => simp [hg]
    | succ i => simp [ih]

theorem rel_of_pairwise {R : α → α → Prop} (hsymm : ∀ a b, R a b → R b a) {l : List α}
    (h : l.Pairwise R) {i j : Nat} {a b : α} (hi : l[i]? = some a) (hj : l[j]? = some b)
    (hij : i ≠ j) : R a b := by
  obtain ⟨hi', rfl⟩ := List.getElem?_eq_some_iff.mp hi
  obtain ⟨hj', rfl⟩ := List.getElem?_eq_some_iff.mp hj
  rcases Nat.lt_or_gt_of_ne hij with hlt | hlt
  · exact List.pairwise_iff_getElem.mp h i j hi' hj' hlt
  · exact hsymm _ _ (List.pairwise_iff_getElem.mp h j i hj' hi' hlt)

theorem getElem?_of_map {γ : Type v} {f : α → γ} {l : List α} {i : Nat} {a : α}
    (h : l[i]? = some a) : (l.map f)[i]? = some (f a) := by
  rw [List.getElem?_map, h, Option.map_some]

/-! ## Lists in step -/

variable {R : α → β → Prop} {l : List α} {m : List β}

theorem forall₂_insertIdx (h : List.Forall₂ R l m) (i : Nat) {a : α} {b : β} (hab : R a b) :
    List.Forall₂ R (l.insertIdx i a) (m.insertIdx i b) := by
  induction h generalizing i with
  | nil =>
    cases i with
    | zero => exact .cons hab .nil
    | succ i => exact .nil
  | cons hcd h ih =>
    cases i with
    | zero => exact .cons hab (.cons hcd h)
    | succ i => exact .cons hcd (ih i)

theorem forall₂_eraseIdx (h : List.Forall₂ R l m) (i : Nat) :
    List.Forall₂ R (l.eraseIdx i) (m.eraseIdx i) := by
  induction h generalizing i with
  | nil => exact .nil
  | cons hab h ih =>
    cases i with
    | zero => exact h
    | succ i => exact .cons hab (ih i)

theorem forall₂_set (h : List.Forall₂ R l m) (i : Nat) {a : α} {b : β} (hab : R a b) :
    List.Forall₂ R (l.set i a) (m.set i b) := by
  induction h generalizing i with
  | nil => exact .nil
  | cons hcd h ih =>
    cases i with
    | zero => exact .cons hab h
    | succ i => exact .cons hcd (ih i)

theorem forall₂_getElem? (h : List.Forall₂ R l m) (i : Nat) : Option.Rel R l[i]? m[i]? := by
  induction h generalizing i with
  | nil => exact .none
  | cons hab h ih =>
    cases i with
    | zero => exact .some hab
    | succ i => exact ih i

theorem getElem?_of_forall₂ (h : List.Forall₂ R l m) {i : Nat} {a : α} (ha : l[i]? = some a) :
    ∃ b, m[i]? = some b ∧ R a b := by
  have hrel := forall₂_getElem? h i
  rw [ha] at hrel
  cases hb : m[i]? with
  | none =>
    rw [hb] at hrel
    cases hrel
  | some b =>
    rw [hb] at hrel
    cases hrel with
    | some hab => exact ⟨b, rfl, hab⟩

theorem forall₂_swap (h : List.Forall₂ R l m) (i j : Nat) :
    List.Forall₂ R (swap l i j) (swap m i j) := by
  have hi := forall₂_getElem? h i
  have hj := forall₂_getElem? h j
  unfold swap
  revert hi hj
  cases l[i]? <;> cases m[i]? <;> intro hi <;> cases hi
  · intro _; exact h
  · cases l[j]? <;> cases m[j]? <;> intro hj <;> cases hj
    · exact h
    · rename_i _ _ hi _ _ hj
      exact forall₂_set (forall₂_set h i hj) j hi

theorem forall₂_eraseIndices (h : List.Forall₂ R l m) (indices : List Nat) :
    List.Forall₂ R (eraseIndices l indices) (eraseIndices m indices) := by
  unfold eraseIndices
  induction indices.reverse generalizing l m with
  | nil => exact h
  | cons i is ih => exact ih (forall₂_eraseIdx h i)

theorem forall₂_imp_mem {S : α → β → Prop} (h : List.Forall₂ R l m)
    (himp : ∀ a ∈ l, ∀ b, R a b → S a b) : List.Forall₂ S l m := by
  induction h with
  | nil => exact .nil
  | cons hab _ ih =>
    obtain ⟨ha, hl⟩ := List.forall_mem_cons.mp himp
    exact .cons (ha _ hab) (ih hl)

theorem forall₂_append_left {before after : List α} (h : List.Forall₂ R (before ++ after) m) :
    ∃ m₁ m₂, m = m₁ ++ m₂ ∧ List.Forall₂ R before m₁ ∧ List.Forall₂ R after m₂ := by
  induction before generalizing m with
  | nil => exact ⟨[], m, rfl, .nil, h⟩
  | cons b before ih =>
    cases h with
    | cons hab h =>
      obtain ⟨m₁, m₂, rfl, h₁, h₂⟩ := ih h
      exact ⟨_ :: m₁, m₂, rfl, .cons hab h₁, h₂⟩

theorem mem_of_forall₂_right (h : List.Forall₂ R l m) {j : β} (hj : j ∈ m) :
    ∃ b ∈ l, R b j := by
  induction h with
  | nil => cases hj
  | @cons b i l m hab _ ih =>
    rcases List.mem_cons.mp hj with rfl | hj
    · exact ⟨b, List.mem_cons_self, hab⟩
    · obtain ⟨c, hc, hR⟩ := ih hj
      exact ⟨c, List.mem_cons_of_mem _ hc, hR⟩

/-- An entry of a table found by its key and given another value. -/
theorem find?_modify_key {κ : Type u} [BEq κ] [LawfulBEq κ] [DecidableEq κ]
    {table : List (κ × β)} {key : κ} {index : Nat}
    (h : table.findIdx? (·.1 == key) = some index) (value : β) (other : κ) :
    (table.modify index fun entry => (entry.1, value)).find? (·.1 == other) =
      if other = key then some (key, value) else table.find? (·.1 == other) := by
  induction table generalizing index with
  | nil => cases h
  | cons entry table ih =>
    rw [List.findIdx?_cons] at h
    by_cases hk : entry.1 = key
    · rw [if_pos (by simpa using hk)] at h
      obtain rfl := Option.some.inj h
      subst hk
      by_cases ho : other = entry.1
      · simp [ho]
      · simp [ho, beq_false_of_ne (Ne.symm ho)]
    · rw [if_neg (by simpa using hk), Option.map_eq_some_iff] at h
      obtain ⟨i, hi, rfl⟩ := h
      rw [List.modify_succ_cons, List.find?_cons, List.find?_cons, ih hi]
      by_cases ho : entry.1 = other
      · subst ho
        simp [hk]
      · simp [beq_false_of_ne ho]

/-! ## Membership and repetition -/

theorem eraseIndices_sublist (l : List α) (indices : List Nat) :
    (eraseIndices l indices).Sublist l := by
  unfold eraseIndices
  induction indices.reverse generalizing l with
  | nil => exact List.Sublist.refl l
  | cons i is ih => exact (ih (l.eraseIdx i)).trans (List.eraseIdx_sublist l i)

theorem length_eraseIndices_lt {l : List α} {indices : List Nat} (hne : indices ≠ [])
    (hlt : ∀ i ∈ indices, i < l.length) : (eraseIndices l indices).length < l.length := by
  obtain ⟨init, last, rfl⟩ : ∃ init last, indices = init ++ [last] :=
    ⟨_, _, (List.dropLast_append_getLast hne).symm⟩
  have hlast : last < l.length := hlt last (by simp)
  have hle : (eraseIndices (l.eraseIdx last) init).length ≤ (l.eraseIdx last).length :=
    (eraseIndices_sublist _ _).length_le
  rw [List.length_eraseIdx_of_lt hlast] at hle
  have hstep : eraseIndices l (init ++ [last]) = eraseIndices (l.eraseIdx last) init := by
    simp [eraseIndices]
  rw [hstep]
  omega

theorem map_swap {γ : Type v} (f : α → γ) (l : List α) (i j : Nat) :
    (swap l i j).map f = swap (l.map f) i j := by
  unfold swap
  rw [List.getElem?_map, List.getElem?_map]
  cases l[i]? with
  | none => rfl
  | some a =>
    cases l[j]? with
    | none => rfl
    | some b => simp [List.map_set]

theorem length_swap (l : List α) (i j : Nat) : (swap l i j).length = l.length := by
  unfold swap
  split <;> simp

theorem getElem?_swap (l : List α) {i j : Nat} (hi : i < l.length) (hj : j < l.length) (k : Nat) :
    (swap l i j)[k]? = if k = j then l[i]? else if k = i then l[j]? else l[k]? := by
  unfold swap
  rw [List.getElem?_eq_getElem hi, List.getElem?_eq_getElem hj]
  simp only [List.getElem?_set, List.length_set]
  by_cases hkj : k = j
  · simp [hkj, hj]
  · rw [if_neg (fun h => hkj h.symm), if_neg hkj]
    by_cases hki : k = i
    · simp [hki, hi]
    · rw [if_neg (fun h => hki h.symm), if_neg hki]

theorem swap_eq_of_not_lt {l : List α} {i j : Nat} (h : ¬ (i < l.length ∧ j < l.length)) :
    swap l i j = l := by
  unfold swap
  split
  · rename_i hi hj
    exact absurd ⟨(List.getElem?_eq_some_iff.mp hi).1, (List.getElem?_eq_some_iff.mp hj).1⟩ h
  · rfl

theorem swap_perm (l : List α) (i j : Nat) : (swap l i j).Perm l := by
  by_cases h : i < l.length ∧ j < l.length
  · unfold swap
    rw [List.getElem?_eq_getElem h.1, List.getElem?_eq_getElem h.2]
    exact List.set_set_perm h.1 h.2
  · rw [swap_eq_of_not_lt h]

theorem map_eraseIndices {γ : Type v} (f : α → γ) (l : List α) (indices : List Nat) :
    (eraseIndices l indices).map f = eraseIndices (l.map f) indices := by
  unfold eraseIndices
  induction indices.reverse generalizing l with
  | nil => rfl
  | cons i is ih =>
    rw [List.foldl_cons, List.foldl_cons, ih, ← List.eraseIdx_map]

/-- What is left after erasing at increasing positions stood at another one. -/
theorem mem_eraseIndices {l : List α} {indices : List Nat} (hs : indices.Pairwise (· < ·)) {a : α} :
    a ∈ eraseIndices l indices ↔ ∃ j, l[j]? = some a ∧ j ∉ indices := by
  induction indices using List.reverseRecOn generalizing l with
  | nil => simp [eraseIndices, List.mem_iff_getElem?]
  | append_singleton is last ih =>
    obtain ⟨his, -, hlt⟩ := List.pairwise_append.mp hs
    have hlt (i : Nat) (hi : i ∈ is) : i < last := hlt i hi last (by simp)
    have hstep : eraseIndices l (is ++ [last]) = eraseIndices (l.eraseIdx last) is := by
      simp [eraseIndices]
    rw [hstep, ih his]
    constructor
    · rintro ⟨j, hj, hmem⟩
      rw [List.getElem?_eraseIdx] at hj
      split at hj
      · rename_i hjl
        exact ⟨j, hj, by simp [hmem, Nat.ne_of_lt hjl]⟩
      · rename_i hjl
        refine ⟨j + 1, hj, fun h => ?_⟩
        rcases List.mem_append.mp h with h | h
        · have := hlt _ h
          omega
        · have := List.mem_singleton.mp h
          omega
    · rintro ⟨j, hj, hmem⟩
      simp only [List.mem_append, List.mem_singleton, not_or] at hmem
      rcases Nat.lt_or_gt_of_ne hmem.2 with hjl | hjl
      · exact ⟨j, by rw [List.getElem?_eraseIdx, if_pos hjl]; exact hj, hmem.1⟩
      · refine ⟨j - 1, ?_, fun h => ?_⟩
        · rw [List.getElem?_eraseIdx, if_neg (by omega)]
          rw [show j - 1 + 1 = j by omega]
          exact hj
        · have := hlt _ h
          omega

theorem nodup_getElem? {l : List α} (hnd : l.Nodup) {i j : Nat} {a : α} (hi : l[i]? = some a)
    (hj : l[j]? = some a) : i = j := by
  obtain ⟨hlt, rfl⟩ := List.getElem?_eq_some_iff.mp hi
  obtain ⟨hlt', heq⟩ := List.getElem?_eq_some_iff.mp hj
  exact ((List.Nodup.getElem_inj_iff hnd).mp heq).symm

/-- The entries erased are those that are no longer there. -/
theorem mem_erased {l : List α} (hnd : l.Nodup) {indices : List Nat}
    (hs : indices.Pairwise (· < ·)) {a : α} :
    a ∈ indices.filterMap (l[·]?) ↔ a ∈ l ∧ a ∉ eraseIndices l indices := by
  rw [mem_eraseIndices hs, List.mem_filterMap]
  constructor
  · rintro ⟨i, hi, ha⟩
    refine ⟨List.mem_of_getElem? ha, fun ⟨j, hj, hmem⟩ => hmem ?_⟩
    rwa [nodup_getElem? hnd hj ha]
  · rintro ⟨hmem, hnot⟩
    obtain ⟨i, hi⟩ := List.mem_iff_getElem?.mp hmem
    refine ⟨i, ?_, hi⟩
    by_contra hne
    exact hnot ⟨i, hi, hne⟩

theorem nodup_erased {l : List α} (hnd : l.Nodup) {indices : List Nat}
    (hs : indices.Pairwise (· < ·)) : (indices.filterMap (l[·]?)).Nodup := by
  have hindices : indices.Nodup := hs.imp Nat.ne_of_lt
  exact hindices.filterMap fun _ _ _ ha hb => nodup_getElem? hnd ha hb

theorem nodup_eraseDups [BEq α] [LawfulBEq α] (l : List α) : l.eraseDups.Nodup := by
  generalize hn : l.length = n
  induction n using Nat.strong_induction_on generalizing l with
  | h n ih =>
    cases l with
    | nil => exact List.nodup_nil
    | cons a l =>
      rw [List.eraseDups_cons]
      refine List.nodup_cons.mpr ⟨fun h => ?_, ih _ ?_ _ rfl⟩
      · simpa using (List.mem_filter.mp (List.mem_eraseDups.mp h)).2
      · rw [← hn]
        exact Nat.lt_succ_of_le (List.length_filter_le _ _)

/-- What is picked from paired lists by their first entries stands in the order of the first. -/
theorem filterMap_zip_sublist {γ : Type v} (p : α × β → γ → Bool) (l : List (α × β)) (m : List γ) :
    ((l.zip m).filterMap fun e => if p e.1 e.2 then some e.1.1 else none).Sublist
      (l.map Prod.fst) := by
  induction l generalizing m with
  | nil => simp
  | cons a l ih =>
    cases m with
    | nil => simp
    | cons c m =>
      rw [List.zip_cons_cons, List.filterMap_cons, List.map_cons]
      cases p a c with
      | false => exact (ih m).cons _
      | true => exact (ih m).cons_cons _

theorem filterMap_fst_sublist (p : α × β → Bool) (l : List (α × β)) :
    (l.filterMap fun e => if p e then some e.1 else none).Sublist (l.map Prod.fst) := by
  induction l with
  | nil => simp
  | cons a l ih =>
    rw [List.filterMap_cons, List.map_cons]
    cases p a with
    | false => exact ih.cons _
    | true => exact ih.cons_cons _

/-! ## Fewer entries -/

theorem subperm_append {k l m n : List α} (h : k.Subperm l) (h' : m.Subperm n) :
    (k ++ m).Subperm (l ++ n) :=
  ((List.subperm_append_right m).mpr h).trans ((List.subperm_append_left l).mpr h')

theorem flatMap_subperm {γ : Type v} {f : α → List γ} {g : β → List γ} {l : List α} {m : List β}
    (h : List.Forall₂ (fun a b => (g b).Subperm (f a)) l m) :
    (m.flatMap g).Subperm (l.flatMap f) := by
  induction h with
  | nil => exact .refl _
  | cons hab _ ih =>
    rw [List.flatMap_cons, List.flatMap_cons]
    exact subperm_append hab ih

/-- Every entry of the new list has its own entry of the old one to gather from. -/
theorem flatMap_subperm_of_keyed {κ : Type v} {γ : Type v} {key : α → κ} {f : α → List γ}
    {l m : List α} (hnd : (m.map key).Nodup)
    (h : ∀ b ∈ m, f b = [] ∨ ∃ a ∈ l, key a = key b ∧ (f b).Subperm (f a)) :
    (m.flatMap f).Subperm (l.flatMap f) := by
  induction m generalizing l with
  | nil => exact List.nil_subperm
  | cons b m ih =>
    rw [List.map_cons, List.nodup_cons] at hnd
    rw [List.forall_mem_cons] at h
    rw [List.flatMap_cons]
    rcases h.1 with hnil | ⟨a, ha, hkey, hsub⟩
    · rw [hnil, List.nil_append]
      exact ih hnd.2 h.2
    · obtain ⟨before, after, rfl⟩ := List.append_of_mem ha
      have hrest : (m.flatMap f).Subperm ((before ++ after).flatMap f) := by
        refine ih hnd.2 fun c hc => (h.2 c hc).imp_right ?_
        rintro ⟨a', ha', hkey', hsub'⟩
        refine ⟨a', ?_, hkey', hsub'⟩
        rcases List.mem_append.mp ha' with hmem | hmem
        · exact List.mem_append_left _ hmem
        · rcases List.mem_cons.mp hmem with rfl | hmem
          · exact absurd (List.mem_map.mpr ⟨c, hc, hkey'.symm.trans hkey⟩) hnd.1
          · exact List.mem_append_right _ hmem
      have hperm : ((before ++ a :: after).flatMap f).Perm (f a ++ (before ++ after).flatMap f) := by
        rw [List.flatMap_append, List.flatMap_cons, List.flatMap_append]
        exact List.perm_append_comm_assoc _ _ _
      exact (subperm_append hsub hrest).trans hperm.symm.subperm

/-! ## Positions by a predicate -/

section Predicate

variable (p : α → Bool)

def indicesWhere (l : List α) : List Nat := (l.zipIdx.filter fun e => p e.1).map Prod.snd

theorem indicesWhere_cons (a : α) (l : List α) : indicesWhere p (a :: l) =
    (if p a then [0] else []) ++ (indicesWhere p l).map (· + 1) := by
  have htail : ((l.zipIdx 1).filter fun e => p e.1).map Prod.snd =
      (indicesWhere p l).map (· + 1) := by
    rw [List.zipIdx_succ, List.filter_map, indicesWhere, List.map_map, List.map_map]
    rfl
  rw [indicesWhere, List.zipIdx_cons, ← htail]
  by_cases h : p a = true
  · rw [List.filter_cons_of_pos (by simpa using h), if_pos h]
    rfl
  · rw [List.filter_cons_of_neg (by simpa using h), if_neg h]
    rfl

theorem indicesWhere_map {γ : Type v} (f : γ → α) (l : List γ) :
    indicesWhere p (l.map f) = indicesWhere (fun c => p (f c)) l := by
  rw [indicesWhere, List.zipIdx_map, List.filter_map, List.map_map]
  rfl

theorem indicesWhere_eq_nil {l : List α} : indicesWhere p l = [] ↔ ∀ a ∈ l, p a = false := by
  induction l with
  | nil => simp [indicesWhere]
  | cons a l ih =>
    rw [indicesWhere_cons, List.append_eq_nil_iff, List.map_eq_nil_iff, ih, List.forall_mem_cons]
    cases p a <;> simp

theorem eraseIndices_cons_succ (a : α) (l : List α) (indices : List Nat) :
    eraseIndices (a :: l) (indices.map (· + 1)) = a :: eraseIndices l indices := by
  unfold eraseIndices
  rw [← List.map_reverse]
  induction indices.reverse generalizing l with
  | nil => rfl
  | cons i is ih =>
    rw [List.map_cons, List.foldl_cons, List.foldl_cons, List.eraseIdx_cons_succ]
    exact ih _

theorem eraseIndices_indicesWhere (l : List α) :
    eraseIndices l (indicesWhere p l) = l.filter fun a => !p a := by
  induction l with
  | nil => rfl
  | cons a l ih =>
    rw [indicesWhere_cons]
    by_cases h : p a = true
    · rw [if_pos h, List.filter_cons_of_neg (by simp [h]), ← ih]
      have hcons := eraseIndices_cons_succ a l (indicesWhere p l)
      unfold eraseIndices at hcons ⊢
      rw [List.singleton_append, List.reverse_cons, List.foldl_append, hcons]
      rfl
    · rw [if_neg h, List.nil_append, eraseIndices_cons_succ,
        List.filter_cons_of_pos (by simp [h]), ih]

theorem findIdx?_congr {q : α → Bool} {l : List α} (h : ∀ a ∈ l, p a = q a) :
    l.findIdx? p = l.findIdx? q := by
  induction l with
  | nil => rfl
  | cons a l ih =>
    obtain ⟨ha, hl⟩ := List.forall_mem_cons.mp h
    rw [List.findIdx?_cons, List.findIdx?_cons, ha, ih hl]

/-- Inserted before the first entry of a kind, or at the end. -/
theorem insertIdx_findIdx? (l : List α) (a : α) : ∃ before after, l = before ++ after ∧
    l.insertIdx ((l.findIdx? p).getD l.length) a = before ++ a :: after ∧
    (∀ b ∈ before, p b = false) ∧ ∀ b ∈ after.head?, p b = true := by
  induction l with
  | nil => exact ⟨[], [], rfl, rfl, by simp, by simp⟩
  | cons c l ih =>
    by_cases h : p c = true
    · refine ⟨[], c :: l, rfl, ?_, by simp, by simpa using h⟩
      rw [List.findIdx?_cons, if_pos h]
      rfl
    · obtain ⟨before, after, hl, hinsert, hbefore, hafter⟩ := ih
      refine ⟨c :: before, after, by rw [hl]; rfl, ?_, ?_, hafter⟩
      · have hposition : (((c :: l).findIdx? p).getD (c :: l).length) =
            (l.findIdx? p).getD l.length + 1 := by
          rw [List.findIdx?_cons, if_neg h]
          cases l.findIdx? p <;> rfl
        rw [hposition, List.insertIdx_succ_cons, hinsert]
        rfl
      · rw [List.forall_mem_cons]
        exact ⟨by simpa using h, hbefore⟩

end Predicate

end ListEdit
