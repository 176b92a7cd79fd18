import Schemaform.Form.Agreement
import Schemaform.Form.Writes

/-!
# Form.Relocation

External findings when items of arrays change places and the data stay the same.

* `LiesIn`: a location at or below an array item, with the path below it.
* `Follows`: a location below an item goes where the item goes, one outside all items stays.
* `Relocated`: every batch holds its findings at their new locations.
* `rebaseLocation_at`, `swapLocation_at`: the two rebasing algorithms.
* `findings_follow`: moves, host commits and resets.
-/

namespace Schemaform

open Engine (arrayItemPointer HostArrayItem)

/-! ## Pointers below items -/

theorem rebasePointer_below (source rest destination : Pointer) :
    rebasePointer (source ++ rest) source destination = some (destination ++ rest) := by
  rw [rebasePointer, if_pos (Pointer.startsWith_append source rest), List.drop_left]

theorem rebasePointer_apart {source p : Pointer} (h : p.startsWith source = false)
    (destination : Pointer) : rebasePointer p source destination = none := by
  rw [rebasePointer, h]
  rfl

theorem item_not_startsWith (array rest : Pointer) {i j : Nat} (h : i ≠ j) :
    (arrayItemPointer array i ++ rest).startsWith (arrayItemPointer array j) = false := by
  have hapart := (Engine.arrayItemPointer_apart array h rest []).1
  rwa [List.append_nil] at hapart

theorem item_not_startsWith_of_apart {a b : Pointer} (h : a.Apart b) (i j : Nat) (rest : Pointer) :
    (arrayItemPointer a i ++ rest).startsWith (arrayItemPointer b j) = false := by
  have hapart := (Engine.item_apart h i j rest []).1
  rwa [List.append_nil] at hapart

/-! ## One array -/

theorem rebaseInArray_elsewhere {array location : Pointer} {after items : List HostArrayItem}
    {index : Nat} (h : ∀ k, k < items.length →
      location.startsWith (arrayItemPointer array (index + k)) = false) :
    rebaseInArray array location after index items = .elsewhere := by
  induction items generalizing index with
  | nil => rfl
  | cons item items ih =>
    have hhead := h 0 (by simp)
    rw [Nat.add_zero] at hhead
    rw [rebaseInArray, rebasePointer_apart hhead]
    refine ih fun k hk => ?_
    have htail := h (k + 1) (by simpa using hk)
    rwa [Nat.add_assoc, Nat.add_comm 1 k]

theorem rebaseInArray_at {array rest : Pointer} {after items : List HostArrayItem}
    {item : HostArrayItem} {index k : Nat} (h : items[k]? = some item) :
    rebaseInArray array (arrayItemPointer array (index + k) ++ rest) after index items =
      (after.findIdx? (· == item)).elim .unmatched fun newIndex =>
        .moved (arrayItemPointer array newIndex ++ rest) := by
  induction items generalizing index k with
  | nil => cases h
  | cons head items ih =>
    cases k with
    | zero =>
      cases h
      rw [Nat.add_zero, rebaseInArray, rebasePointer_below, List.nil_append]
      cases after.findIdx? (· == item) <;> rfl
    | succ k =>
      have hne : index + (k + 1) ≠ index := by omega
      rw [rebaseInArray, rebasePointer_apart (item_not_startsWith array rest hne)]
      rw [show index + (k + 1) = index + 1 + k by omega]
      exact ih h

/-! ## All arrays -/

/-- Two topologies of each array, of arrays apart. -/
def Separate (topologies : List (HostArrayTopology × HostArrayTopology)) : Prop :=
  topologies.Pairwise fun t u => t.1.binding.Apart u.1.binding

theorem rebaseLocation_elsewhere {unmatched : UnmatchedFinding} {location : Pointer}
    {topologies : List (HostArrayTopology × HostArrayTopology)}
    (h : ∀ t ∈ topologies, ∀ k, k < t.1.items.length →
      location.startsWith (arrayItemPointer t.1.binding k) = false) :
    rebaseLocation unmatched topologies location = some location := by
  induction topologies with
  | nil => rfl
  | cons t topologies ih =>
    have hhead : rebaseInArray t.1.binding location t.2.items 0 t.1.items = .elsewhere := by
      refine rebaseInArray_elsewhere fun k hk => ?_
      rw [Nat.zero_add]
      exact h t List.mem_cons_self k hk
    rw [rebaseLocation, hhead]
    exact ih fun u hu => h u (List.mem_cons_of_mem _ hu)

/-- A location below an item goes where the item goes. -/
theorem rebaseLocation_at {unmatched : UnmatchedFinding}
    {topologies : List (HostArrayTopology × HostArrayTopology)} (hseparate : Separate topologies)
    {t : HostArrayTopology × HostArrayTopology} (ht : t ∈ topologies) {k : Nat}
    {item : HostArrayItem} (hk : t.1.items[k]? = some item) (rest : Pointer) :
    rebaseLocation unmatched topologies (arrayItemPointer t.1.binding k ++ rest) =
      (t.2.items.findIdx? (· == item)).elim
        (if unmatched = .preserve then some (arrayItemPointer t.1.binding k ++ rest) else none)
        fun newIndex => some (arrayItemPointer t.1.binding newIndex ++ rest) := by
  induction topologies with
  | nil => cases ht
  | cons u topologies ih =>
    obtain ⟨hhead, htail⟩ := List.pairwise_cons.mp hseparate
    rcases List.mem_cons.mp ht with rfl | hmem
    · have hin := @rebaseInArray_at t.1.binding rest t.2.items t.1.items item 0 k hk
      rw [Nat.zero_add] at hin
      rw [rebaseLocation, hin]
      cases t.2.items.findIdx? (· == item) with
      | none => rfl
      | some newIndex =>
        exact rebaseLocation_elsewhere fun v hv j _ =>
          item_not_startsWith_of_apart (hhead v hv) newIndex j rest
    · have hin : rebaseInArray u.1.binding (arrayItemPointer t.1.binding k ++ rest) u.2.items 0
          u.1.items = .elsewhere := by
        refine rebaseInArray_elsewhere fun j _ => ?_
        exact item_not_startsWith_of_apart (hhead t hmem).symm k (0 + j) rest
      rw [rebaseLocation, hin]
      exact ih htail hmem

/-! ## Two items -/

theorem swapLocation_source (array rest : Pointer) (i j : Nat) :
    swapLocation (arrayItemPointer array i) (arrayItemPointer array j)
      (arrayItemPointer array i ++ rest) = arrayItemPointer array j ++ rest := by
  rw [swapLocation, rebasePointer_below]

theorem swapLocation_destination (array rest : Pointer) {i j : Nat} (h : i ≠ j) :
    swapLocation (arrayItemPointer array i) (arrayItemPointer array j)
      (arrayItemPointer array j ++ rest) = arrayItemPointer array i ++ rest := by
  rw [swapLocation, rebasePointer_apart (item_not_startsWith array rest h.symm),
    rebasePointer_below, Option.getD_some]

theorem swapLocation_elsewhere {source destination p : Pointer}
    (hs : p.startsWith source = false) (hd : p.startsWith destination = false) :
    swapLocation source destination p = p := by
  rw [swapLocation, rebasePointer_apart hs, rebasePointer_apart hd, Option.getD_none]

/-! ## Findings and items -/

/-- Where findings of one batch went. -/
structure RelocatedBatch (move : Pointer → Option Pointer) (batch batch' : ExternalFindingBatch) :
    Prop where
  source : batch'.source = batch.source
  revision : batch'.revision = batch.revision
  findings : batch'.findings.Perm (batch.findings.filterMap (rebaseFinding move))

theorem relocated_rebaseBatch (move : Pointer → Option Pointer) (batch : ExternalFindingBatch) :
    RelocatedBatch move batch (rebaseBatch move batch) :=
  ⟨rfl, rfl, List.perm_insertionSort _ _⟩

theorem rebaseBatch_ne_nil {batch : ExternalFindingBatch} (move : Pointer → Pointer)
    (h : batch.findings ≠ []) :
    (rebaseBatch (fun location => some (move location)) batch).findings ≠ [] := by
  intro hnil
  have hperm := (relocated_rebaseBatch (fun location => some (move location)) batch).findings
  rw [hnil, Form.filterMap_rebaseFinding] at hperm
  exact h (List.map_eq_nil_iff.mp hperm.nil_eq.symm)

namespace Form

/-- The location at `rest` below an item of the array bound at `binding`. -/
def LiesIn (form : Form) (location binding : Pointer) (identity : Nat) (rest : Pointer) : Prop :=
  ∃ (ids : List Nat) (index : Nat), form.engine.arrayItemIdentities binding = some ids ∧
    ids[index]? = some identity ∧ location = arrayItemPointer binding index ++ rest

/-- A location goes with its item. Below an item that is gone it is `lost`. -/
structure Follows (form form' : Form) (lost move : Pointer → Option Pointer) : Prop where
  survives : ∀ location binding identity rest location',
    form.LiesIn location binding identity rest → form'.LiesIn location' binding identity rest →
    move location = some location'
  outside : ∀ location, (∀ binding identity rest, ¬ form.LiesIn location binding identity rest) →
    move location = some location
  vanished : ∀ location binding identity rest, form.LiesIn location binding identity rest →
    (∀ location', ¬ form'.LiesIn location' binding identity rest) → move location = lost location

/-- Every stored finding is where its location goes, and nothing else is stored. -/
def FindingsFollow (form form' : Form) (lost : Pointer → Option Pointer) : Prop :=
  ∃ move batches, form.Follows form' lost move ∧
    List.Forall₂ (RelocatedBatch move) form.externalFindingBatches batches ∧
    form'.externalFindingBatches = batches.filter fun batch => !batch.findings.isEmpty

variable {form form' : Form} {location binding rest : Pointer} {identity : Nat}

theorem identities_found (hinv : form.Inv) {ids : List Nat}
    (h : form.engine.arrayItemIdentities binding = some ids) : ids.Nodup ∧
      (∀ i ∈ ids, i < form.engine.nextItemIdentity) ∧
      ∃ a ∈ form.definition.inner.engine.arrays, a.binding = binding := by
  obtain ⟨array, ha, rfl⟩ := Option.map_eq_some_iff.mp h
  obtain ⟨hmem, rfl⟩ := Engine.Form.array_mem ha
  exact ⟨hinv.identities_nodup array hmem, identities_lt hinv hmem, array.definition,
    hinv.shaped.array_mem hmem, rfl⟩

theorem arrays_apart (form : Form) {a b : Engine.ArrayDefinition}
    (ha : a ∈ form.definition.inner.engine.arrays) (hb : b ∈ form.definition.inner.engine.arrays)
    (hne : a.binding ≠ b.binding) : a.binding.Apart b.binding := by
  obtain ⟨i, hi⟩ := List.mem_iff_getElem?.mp ha
  obtain ⟨j, hj⟩ := List.mem_iff_getElem?.mp hb
  by_cases hij : i = j
  · subst hij
    rw [hi] at hj
    exact absurd (congrArg Engine.ArrayDefinition.binding (Option.some.inj hj)) hne
  · exact ListEdit.rel_of_pairwise (fun _ _ => Pointer.Apart.symm) form.engine_wf.arrays_apart
      (ListEdit.getElem?_of_map hi) (ListEdit.getElem?_of_map hj) hij

/-- Nothing lies in two items. -/
theorem LiesIn.unique (hinv : form.Inv) {binding' rest' : Pointer} {identity' : Nat}
    (h : form.LiesIn location binding identity rest)
    (h' : form.LiesIn location binding' identity' rest') :
    binding = binding' ∧ identity = identity' ∧ rest = rest' := by
  obtain ⟨ids, i, hids, hi, rfl⟩ := h
  obtain ⟨ids', j, hids', hj, heq⟩ := h'
  have hpre : (arrayItemPointer binding i ++ rest).startsWith (arrayItemPointer binding' j) = true :=
    Pointer.startsWith_iff.mpr ⟨rest', heq⟩
  obtain ⟨_, _, a, ha, rfl⟩ := identities_found hinv hids
  obtain ⟨_, _, b, hb, rfl⟩ := identities_found hinv hids'
  by_cases hbinding : a.binding = b.binding
  · rw [hbinding] at hids heq hpre
    obtain rfl := Option.some.inj (hids.symm.trans hids')
    by_cases hij : i = j
    · subst hij
      exact ⟨hbinding, Option.some.inj (hi.symm.trans hj), List.append_cancel_left heq⟩
    · rw [item_not_startsWith _ _ hij] at hpre
      cases hpre
  · rw [item_not_startsWith_of_apart (form.arrays_apart ha hb hbinding)] at hpre
    cases hpre

/-- An item is at one place. -/
theorem LiesIn.functional (hinv : form.Inv) {location' : Pointer}
    (h : form.LiesIn location binding identity rest)
    (h' : form.LiesIn location' binding identity rest) : location = location' := by
  obtain ⟨ids, i, hids, hi, rfl⟩ := h
  obtain ⟨ids', j, hids', hj, rfl⟩ := h'
  obtain rfl := Option.some.inj (hids.symm.trans hids')
  rw [ListEdit.nodup_getElem? (identities_found hinv hids).1 hi hj]

/-- A refused call leaves everything where it is. -/
theorem findingsFollow_refl (hinv : form.Inv) (hord : form.Ordered)
    (lost : Pointer → Option Pointer) : form.FindingsFollow form lost := by
  refine ⟨some, form.externalFindingBatches, ⟨?_, fun _ _ => rfl, ?_⟩, ?_, ?_⟩
  · intro location binding identity rest location' h h'
    rw [h.functional hinv h']
  · intro location binding identity rest h hgone
    exact absurd h (hgone location)
  · refine List.forall₂_same.mpr fun batch _ => ⟨rfl, rfl, ?_⟩
    have hself : batch.findings.filterMap (rebaseFinding some) = batch.findings := by
      rw [filterMap_rebaseFinding fun location => location]
      exact List.map_id' _
    rw [hself]
  · exact (List.filter_eq_self.mpr fun batch hbatch => by simpa using (hord batch hbatch).1).symm

/-! ## Rebasing on topologies -/

/-- The entries of one array: its items before, and its items after as far as they were there. -/
def Entries (form form' : Form) (before after : HostArrayTopology) : Prop :=
  ∃ ids ids', form.engine.arrayItemIdentities before.binding = some ids ∧
    before.items = ids.map .existing ∧
    form'.engine.arrayItemIdentities before.binding = some ids' ∧
    ∀ identity ∈ ids, ∀ j : Nat, after.items[j]? = some (.existing identity) ↔
      ids'[j]? = some identity

theorem separate_zip (form : Form) {after : List HostArrayTopology}
    (hlen : form.hostArrayTopologies.length ≤ after.length) :
    Separate (form.hostArrayTopologies.zip after) := by
  have hbindings : form.hostArrayTopologies.map (·.binding) =
      form.definition.inner.engine.arrays.map (·.binding) := by
    rw [hostArrayTopologies, List.map_map]
    rfl
  have hpairwise : form.hostArrayTopologies.Pairwise fun t u => t.binding.Apart u.binding := by
    have h := form.engine_wf.arrays_apart
    rw [← hbindings] at h
    exact List.pairwise_map.mp h
  have hzip : ((form.hostArrayTopologies.zip after).map Prod.fst).Pairwise fun t u =>
      t.binding.Apart u.binding := by
    rw [List.map_fst_zip hlen]
    exact hpairwise
  rw [List.pairwise_map] at hzip
  exact hzip

theorem follows_rebaseLocation (hinv : form.Inv) (hinv' : form'.Inv)
    {after : List HostArrayTopology}
    (h : List.Forall₂ (form.Entries form') form.hostArrayTopologies after)
    (unmatched : UnmatchedFinding) :
    form.Follows form' (fun location => if unmatched = .preserve then some location else none)
      (rebaseLocation unmatched (form.hostArrayTopologies.zip after)) := by
  have hentry {location binding rest : Pointer} {identity : Nat}
      (hin : form.LiesIn location binding identity rest) :
      ∃ t ∈ form.hostArrayTopologies.zip after, ∃ (k : Nat),
        t.1.binding = binding ∧ form.Entries form' t.1 t.2 ∧
        t.1.items[k]? = some (.existing identity) ∧
        location = arrayItemPointer t.1.binding k ++ rest := by
    obtain ⟨ids, k, hids, hk, rfl⟩ := hin
    obtain ⟨_, _, a, ha, rfl⟩ := identities_found hinv hids
    obtain ⟨i, hi⟩ := List.mem_iff_getElem?.mp ha
    have hbefore : form.hostArrayTopologies[i]? = some _ :=
      (List.getElem?_map ..).trans (congrArg (Option.map _) hi)
    have hrel := ListEdit.forall₂_getElem? h i
    rw [hbefore] at hrel
    cases hat : after[i]? with
    | none =>
      rw [hat] at hrel
      cases hrel
    | some t' =>
      rw [hat] at hrel
      cases hrel with
      | some hentries =>
        refine ⟨(_, t'), List.mem_iff_getElem?.mpr ⟨i, ?_⟩, k, rfl, hentries, ?_, rfl⟩
        · rw [List.getElem?_zip_eq_some]
          exact ⟨hbefore, hat⟩
        · dsimp only
          rw [hids, Option.getD_some, List.getElem?_map, hk]
          rfl
  have hseparate := form.separate_zip h.length_eq.le
  constructor
  · intro location binding identity rest location' hin hin'
    obtain ⟨t, ht, k, rfl, ⟨ids, ids', hids, hitems, hids', hafter⟩, hk, rfl⟩ := hentry hin
    obtain ⟨ids'', j, hids'', hj, rfl⟩ := hin'
    obtain rfl := Option.some.inj (hids'.symm.trans hids'')
    have hmem : identity ∈ ids := by
      rw [hitems, List.getElem?_map] at hk
      obtain ⟨i, hi, heq⟩ := Option.map_eq_some_iff.mp hk
      cases heq
      exact List.mem_of_getElem? hi
    have hjafter := (hafter identity hmem j).mpr hj
    rw [rebaseLocation_at hseparate ht hk]
    cases hfind : t.2.items.findIdx? (· == .existing identity) with
    | none =>
      have hne := List.findIdx?_eq_none_iff.mp hfind _ (List.mem_of_getElem? hjafter)
      simp at hne
    | some j' =>
      obtain ⟨item, hitem, heq⟩ := Engine.Form.findIdx?_some hfind
      rw [eq_of_beq heq] at hitem
      have hj' := (hafter identity hmem j').mp hitem
      rw [ListEdit.nodup_getElem? (identities_found hinv' hids').1 hj hj']
      rfl
  · intro location hout
    refine rebaseLocation_elsewhere fun t ht k hk => Bool.eq_false_iff.mpr fun hpre => ?_
    obtain ⟨r, hr⟩ := Pointer.startsWith_iff.mp hpre
    obtain ⟨ids, _, hids, hitems, _⟩ := (List.forall₂_iff_zip.mp h).2 ht
    rw [hitems, List.length_map] at hk
    exact hout t.1.binding ids[k] r ⟨ids, k, hids, List.getElem?_eq_getElem hk, hr⟩
  · intro location binding identity rest hin hgone
    obtain ⟨t, ht, k, rfl, ⟨ids, ids', hids, hitems, hids', hafter⟩, hk, rfl⟩ := hentry hin
    have hmem : identity ∈ ids := by
      rw [hitems, List.getElem?_map] at hk
      obtain ⟨i, hi, heq⟩ := Option.map_eq_some_iff.mp hk
      cases heq
      exact List.mem_of_getElem? hi
    rw [rebaseLocation_at hseparate ht hk]
    cases hfind : t.2.items.findIdx? (· == .existing identity) with
    | none => rfl
    | some j =>
      obtain ⟨item, hitem, heq⟩ := Engine.Form.findIdx?_some hfind
      rw [eq_of_beq heq] at hitem
      exact absurd ⟨ids', j, hids', (hafter identity hmem j).mp hitem, rfl⟩ (hgone _)

end Form

/-! ## Replaced arrays -/

/-- Nothing in a replaced array was there before. -/
def HostTransaction.MarkedFresh (transaction : HostTransaction) : Prop :=
  ∀ topology ∈ transaction.arrayTopologies, topology.authoritativeReplacement = true →
    ∀ item ∈ topology.items, item = .fresh

theorem update_markedFresh {topology : HostArrayTopology} (candidate : Value)
    (before : Option Value)
    (h : topology.authoritativeReplacement = true → ∀ item ∈ topology.items, item = .fresh) :
    (topology.update candidate before).authoritativeReplacement = true →
      ∀ item ∈ (topology.update candidate before).items, item = .fresh := by
  unfold HostArrayTopology.update
  dsimp only
  split
  · exact h
  · intro hmarked item hitem
    dsimp only at hmarked hitem
    rw [if_pos hmarked] at hitem
    exact List.eq_of_mem_replicate hitem

theorem authoritativeWrite_markedFresh {transaction : HostTransaction}
    (h : transaction.MarkedFresh) (write : Pointer) (edit : Value → Option Value) :
    (transaction.authoritativeWrite write edit).MarkedFresh := by
  unfold HostTransaction.authoritativeWrite
  cases edit transaction.candidate with
  | none => exact h
  | some candidate =>
    intro topology htopology
    obtain ⟨original, hmem, rfl⟩ := List.mem_map.mp htopology
    split
    · exact update_markedFresh _ _ (h original hmem)
    · exact h original hmem

theorem editArray_markedFresh {α : Type} {transaction : HostTransaction}
    (h : transaction.MarkedFresh) (array : Pointer) (place : List HostArrayItem → Option α)
    {editValues : α → List Value → List Value}
    {editEntries : α → List HostArrayItem → List HostArrayItem}
    (hparallel : ∀ a, Parallel (editValues a) (editEntries a)) :
    (transaction.editArray array place editValues editEntries).MarkedFresh := by
  unfold HostTransaction.editArray
  split
  · exact h
  rename_i index values topology hparts
  split
  · exact h
  rename_i position hplace
  split
  · exact h
  split
  · exact h
  intro topology htopology hmarked item hitem
  rcases ListEdit.mem_modify htopology with ⟨original, hmem, rfl⟩ | hmem
  · have hfresh := h original (List.mem_of_getElem? hmem) hmarked
    have hall : List.Forall₂ (fun (item : HostArrayItem) (_ : Value) => item = .fresh)
        original.items (original.items.map fun _ => .null) :=
      List.forall₂_map_right_iff.mpr (List.forall₂_same.mpr hfresh)
    obtain ⟨k, hk⟩ := List.mem_iff_getElem?.mp hitem
    have hrel := ListEdit.forall₂_getElem?
      ((hparallel position).related _ _ _ (fun _ => rfl) hall) k
    rw [hk] at hrel
    generalize (editValues position (original.items.map fun _ => .null))[k]? = v at hrel
    cases hrel with
    | some heq => exact heq
  · obtain ⟨j, _, hj⟩ := hmem
    exact h topology (List.mem_of_getElem? hj) hmarked item hitem

theorem apply_markedFresh {transaction : HostTransaction} (h : transaction.MarkedFresh)
    {operation : HostOperation} (hwf : operation.WF) :
    (transaction.apply operation).MarkedFresh := by
  have hbegin : transaction.beginOperation.1.MarkedFresh := by
    unfold HostTransaction.beginOperation
    split
    · exact h
    · dsimp only
      split <;> exact h
  unfold HostTransaction.apply
  dsimp only
  generalize transaction.beginOperation = begun at hbegin ⊢
  obtain ⟨transaction, begun⟩ := begun
  split
  · exact hbegin
  · cases operation with
    | set pointer value => exact authoritativeWrite_markedFresh hbegin _ _
    | remove pointer => exact authoritativeWrite_markedFresh hbegin _ _
    | replaceAll value => exact authoritativeWrite_markedFresh hbegin _ _
    | appendItem array value =>
      exact editArray_markedFresh hbegin _ _ fun _ => parallel_append hwf
    | insertItemBefore array before value =>
      dsimp only [HostTransaction.insertItemBefore]
      split
      · exact hbegin
      · exact editArray_markedFresh hbegin _ _ fun index => parallel_insertIdx index hwf
    | removeItem array item =>
      dsimp only [HostTransaction.removeItem]
      split
      · exact hbegin
      · exact editArray_markedFresh hbegin _ _ fun index => parallel_eraseIdx index
    | moveItem direction array item =>
      dsimp only [HostTransaction.moveItem]
      split
      · exact hbegin
      · exact editArray_markedFresh hbegin _ _ fun position => parallel_swap position.1 position.2

theorem foldl_markedFresh {transaction : HostTransaction} (h : transaction.MarkedFresh)
    {operations : List HostOperation} (hwf : ∀ o ∈ operations, o.WF) :
    (operations.foldl HostTransaction.apply transaction).MarkedFresh := by
  induction operations generalizing transaction with
  | nil => exact h
  | cons o operations ih =>
    rw [List.forall_mem_cons] at hwf
    exact ih (apply_markedFresh h hwf.1) hwf.2

namespace Form

variable {form form' : Form}

theorem queued_markedFresh (form : Form) {operations : List HostOperation}
    (hwf : ∀ o ∈ operations, o.WF) : (form.queued operations).MarkedFresh := by
  refine foldl_markedFresh (fun topology htopology hmarked => ?_) hwf
  obtain ⟨_, _, rfl⟩ := List.mem_map.mp htopology
  cases hmarked

/-! ## Host commits -/

/-- The items of a committed array that were there before are the existing ones of its topology. -/
theorem committed_entries {transaction : HostTransaction} {array array' : Engine.ArrayState}
    {topology : HostArrayTopology} (hinv : form.Inv)
    (h : form.ArrayCommitted form' transaction array array' topology)
    (hfresh : topology.authoritativeReplacement = true → ∀ item ∈ topology.items, item = .fresh)
    {identity : Nat} (hmem : identity ∈ array.identities) (j : Nat) :
    topology.items[j]? = some (.existing identity) ↔ array'.identities[j]? = some identity := by
  have hlt := identities_lt hinv h.before identity hmem
  have hids := h.identities
  cases hmarked : topology.authoritativeReplacement with
  | true =>
    rw [hmarked] at hids
    constructor
    · intro hitem
      cases hfresh hmarked _ (List.mem_of_getElem? hitem)
    · intro hid
      have hle := hids identity (List.mem_of_getElem? hid)
      omega
  | false =>
    rw [hmarked] at hids
    have hrel := ListEdit.forall₂_getElem? hids j
    constructor
    · intro hitem
      rw [hitem] at hrel
      generalize array'.identities[j]? = i at hrel ⊢
      cases hrel with
      | some hnamed => exact congrArg some hnamed
    · intro hid
      rw [hid] at hrel
      generalize topology.items[j]? = item at hrel ⊢
      cases hrel with
      | @some item _ hnamed =>
        cases item with
        | existing i =>
          have heq : identity = i := hnamed
          rw [heq]
        | fresh =>
          have hle : form.engine.nextItemIdentity ≤ identity := hnamed
          omega

theorem committed_entries_all {ε : Type} {operations : List HostOperation}
    {closure : Except ε Unit} {t : Transition} (hinv : form.Inv) (hinv' : form'.Inv)
    (hwf : ∀ o ∈ operations, o.WF)
    (h : form.tryTransact operations closure = (form', .ok t)) :
    List.Forall₂ (form.Entries form') form.hostArrayTopologies
      (form.queued operations).arrayTopologies := by
  obtain ⟨_, hcommitted⟩ := tryTransact_committed hinv hwf h
  have htracked := queued_tracked hinv hwf
  rw [hostArrayTopologies_eq form.engine_wf hinv.shaped, List.forall₂_map_left_iff]
  refine List.forall₂_iff_get.mpr ⟨htracked.topologies.length_eq, fun k hk hk' => ?_⟩
  obtain ⟨array', topology, ht, hc⟩ := hcommitted k _ (List.getElem?_eq_getElem hk)
  obtain rfl := Option.some.inj ((List.getElem?_eq_getElem hk').symm.trans ht)
  refine ⟨form.engine.arrays[k].identities, array'.identities, ?_, rfl, ?_, ?_⟩
  · change form.engine.arrayItemIdentities form.engine.arrays[k].definition.binding = _
    rw [Engine.Form.arrayItemIdentities, hinv.shaped.array_eq form.engine_wf hc.before]
    rfl
  · change form'.engine.arrayItemIdentities form.engine.arrays[k].definition.binding = _
    rw [← hc.binding, Engine.Form.arrayItemIdentities,
      hinv'.shaped.array_eq form'.engine_wf hc.after]
    rfl
  · intro identity hmem j
    exact committed_entries hinv hc (queued_markedFresh form hwf _ (List.getElem_mem hk')) hmem j

/-- A commit over equal data rebases the findings. -/
theorem tryTransact_findings {ε : Type} {operations : List HostOperation}
    {closure : Except ε Unit} {r : Except (TransactionError ε) Transition} (hinv : form.Inv)
    (hinv' : form'.Inv) (hord : form.Ordered) (hwf : ∀ o ∈ operations, o.WF)
    (hsame : jsonValuesEqual form.formData form'.formData = true)
    (h : form.tryTransact operations closure = (form', r)) :
    form.FindingsFollow form' fun _ => none := by
  rcases tryTransact_cases hinv hwf h with
    ⟨rfl, _⟩ | ⟨candidate, engine, _, _, he, hform, rfl⟩
  · exact findingsFollow_refl hinv hord _
  have hfollows := follows_rebaseLocation hinv hinv' (committed_entries_all hinv hinv' hwf h)
    .remove
  have hfound := (queued_tracked hinv hwf).found
  rcases Engine.Form.applyHostTransaction_cases hinv.identities_nodup hfound he with
    ⟨_, _, hr⟩ | ⟨_, _, _, _, _, hengine, _⟩
  · cases hr
  have hdata : form'.formData = form.engine.committedData candidate := by
    rw [hform, formData, hostCommitted_engine, hengine]
    rfl
  have hequal : jsonValuesEqual form.formData candidate = true := by
    by_cases heq : jsonValuesEqual form.engine.formData candidate = true
    · exact heq
    · rw [hdata, Engine.Form.committedData, if_neg heq] at hsame
      exact hsame
  rw [hostCommitted, if_pos hequal] at hform
  refine ⟨_, _, hfollows, ?_, congrArg Form.externalFindingBatches hform⟩
  exact List.forall₂_map_right_iff.mpr (List.forall₂_same.mpr fun batch _ =>
    relocated_rebaseBatch _ batch)

theorem transact_findings {operations : List HostOperation}
    {r : Except HostCommitError Transition} (hinv : form.Inv) (hinv' : form'.Inv)
    (hord : form.Ordered) (hwf : ∀ o ∈ operations, o.WF)
    (hsame : jsonValuesEqual form.formData form'.formData = true)
    (h : form.transact operations = (form', r)) : form.FindingsFollow form' fun _ => none := by
  unfold transact at h
  split at h
  · rename_i form₁ transition htry
    cases h
    exact tryTransact_findings hinv hinv' hord hwf hsame htry
  · rename_i form₁ error htry
    cases h
    exact tryTransact_findings hinv hinv' hord hwf hsame htry

/-! ## Resets -/

theorem arrayItemIdentities_of_definition (hinv : form.Inv) {array : Engine.ArrayDefinition}
    (ha : array ∈ form.definition.inner.engine.arrays) :
    ∃ ids, form.engine.arrayItemIdentities array.binding = some ids := by
  have hmem := ha
  rw [← hinv.shaped.arrays] at hmem
  obtain ⟨state, hstate, rfl⟩ := List.mem_map.mp hmem
  exact ⟨state.identities,
    congrArg (Option.map _) (hinv.shaped.array_eq form.engine_wf hstate)⟩

theorem topologies_entries (hinv : form.Inv) (hinv' : form'.Inv)
    (hdefinition : form'.definition = form.definition) :
    List.Forall₂ (form.Entries form') form.hostArrayTopologies form'.hostArrayTopologies := by
  rw [hostArrayTopologies, hostArrayTopologies, hdefinition, List.forall₂_map_left_iff,
    List.forall₂_map_right_iff]
  refine List.forall₂_same.mpr fun array ha => ?_
  obtain ⟨ids, hids⟩ := arrayItemIdentities_of_definition hinv ha
  obtain ⟨ids', hids'⟩ := arrayItemIdentities_of_definition hinv' (hdefinition ▸ ha)
  refine ⟨ids, ids', hids, ?_, hids', fun identity _ j => ?_⟩
  · dsimp only
    rw [hids, Option.getD_some]
  · dsimp only
    rw [hids', Option.getD_some, List.getElem?_map]
    cases ids'[j]? with
    | none => simp
    | some i => simp

theorem reset_findings (hinv : form.Inv) (hinv' : form.reset.1.Inv)
    (hsame : jsonValuesEqual form.formData form.reset.1.formData = true) :
    form.FindingsFollow form.reset.1 some := by
  have hform := reset_eq form
  have hengine : form.reset.1.engine = form.engine.reset := by
    rw [hform]
    split <;> rfl
  have hrevision : form.engine.reset.dataRevision = form.engine.dataRevision := by
    have hexact := Engine.Form.reset_data form.engine
    have hequal : jsonValuesEqual form.engine.formData form.engine.reset.formData = true :=
      hengine ▸ hsame
    rwa [Engine.Form.DataExact, if_pos hequal, Nat.add_zero] at hexact
  rw [if_pos hrevision] at hform
  rw [hform] at hinv' ⊢
  have hfollows := follows_rebaseLocation hinv hinv' (topologies_entries hinv hinv' rfl) .preserve
  refine ⟨_, _, hfollows, ?_, rfl⟩
  exact List.forall₂_map_right_iff.mpr (List.forall₂_same.mpr fun batch _ =>
    relocated_rebaseBatch _ batch)

/-! ## Moves -/

/-- Two items of one array have changed places. -/
theorem follows_swapLocation (hinv : form.Inv) (hinv' : form'.Inv) {binding : Pointer}
    {ids : List Nat} {i j : Nat} (hi : i < ids.length) (hj : j < ids.length) (hne : i ≠ j)
    (h : form.engine.ItemsReplaced form'.engine binding ids (ListEdit.swap ids i j))
    (lost : Pointer → Option Pointer) :
    form.Follows form' lost fun location =>
      some (swapLocation (arrayItemPointer binding i) (arrayItemPointer binding j) location) := by
  obtain ⟨hnodup, _, a, ha, rfl⟩ := identities_found hinv h.before
  obtain ⟨hnodup', _⟩ := identities_found hinv' h.after
  constructor
  · intro location binding' identity rest location' hin hin'
    obtain ⟨before, k, hbefore, hk, rfl⟩ := hin
    obtain ⟨after, k', hafter, hk', rfl⟩ := hin'
    by_cases hbinding : binding' = a.binding
    · subst hbinding
      obtain rfl := Option.some.inj (h.before.symm.trans hbefore)
      obtain rfl := Option.some.inj (h.after.symm.trans hafter)
      have hswap := ListEdit.getElem?_swap ids hi hj
      by_cases hks : k = i
      · subst hks
        have hdest : (ListEdit.swap ids k j)[j]? = some identity := by
          rw [hswap, if_pos rfl, hk]
        rw [swapLocation_source, ListEdit.nodup_getElem? hnodup' hk' hdest]
      · by_cases hkd : k = j
        · subst hkd
          have hsource : (ListEdit.swap ids i k)[i]? = some identity := by
            rw [hswap, if_neg hne, if_pos rfl, hk]
          rw [swapLocation_destination _ _ hne, ListEdit.nodup_getElem? hnodup' hk' hsource]
        · have hstay : (ListEdit.swap ids i j)[k]? = some identity := by
            rw [hswap, if_neg hkd, if_neg hks, hk]
          rw [swapLocation_elsewhere (item_not_startsWith _ rest hks)
            (item_not_startsWith _ rest hkd), ListEdit.nodup_getElem? hnodup' hk' hstay]
    · rw [h.others binding' hbinding, hbefore] at hafter
      obtain rfl := Option.some.inj hafter
      obtain ⟨hnodup₁, _, b, hb, rfl⟩ := identities_found hinv hbefore
      have hapart := form.arrays_apart hb ha hbinding
      rw [swapLocation_elsewhere (item_not_startsWith_of_apart hapart k i rest)
        (item_not_startsWith_of_apart hapart k j rest), ListEdit.nodup_getElem? hnodup₁ hk' hk]
  · intro location hout
    have helsewhere (k : Nat) (hk : k < ids.length) :
        location.startsWith (arrayItemPointer a.binding k) = false := by
      refine Bool.eq_false_iff.mpr fun hpre => ?_
      obtain ⟨rest, hrest⟩ := Pointer.startsWith_iff.mp hpre
      exact hout a.binding ids[k] rest ⟨ids, k, h.before, List.getElem?_eq_getElem hk, hrest⟩
    rw [swapLocation_elsewhere (helsewhere i hi) (helsewhere j hj)]
  · intro location binding' identity rest hin hgone
    obtain ⟨before, k, hbefore, hk, rfl⟩ := hin
    by_cases hbinding : binding' = a.binding
    · subst hbinding
      obtain rfl := Option.some.inj (h.before.symm.trans hbefore)
      have hmem : identity ∈ ListEdit.swap ids i j :=
        (ListEdit.swap_perm ids i j).mem_iff.mpr (List.mem_of_getElem? hk)
      obtain ⟨k', hk'⟩ := List.mem_iff_getElem?.mp hmem
      exact absurd ⟨_, k', h.after, hk', rfl⟩ (hgone _)
    · have hafter := (h.others binding' hbinding).trans hbefore
      exact absurd ⟨before, k, hafter, hk, rfl⟩ (hgone _)

theorem moveItem_findings {direction : Engine.ArrayMove} {array : InstanceIdentity}
    {item : ItemIdentity} {r : Except UserOperationError Transition} (hinv : form.Inv)
    (hinv' : form'.Inv) (hord : form.Ordered)
    (hsame : jsonValuesEqual form.formData form'.formData = true)
    (h : form.moveItem direction array item = (form', r)) :
    form.FindingsFollow form' fun _ => none := by
  rcases moveItem_cases h with
    ⟨rfl, _⟩ | ⟨binding, template, engine, moved, _, _, ⟨_, he⟩, hform, _⟩
  · exact findingsFollow_refl hinv hord _
  have hengine : form'.engine = engine := by
    rw [hform]
    split <;> rfl
  have hstays : moved.dataChanged = false := by
    have hexact := (edited_of_ok (Engine.Form.moveArrayItem_edited hinv he) rfl).data
    have hequal : jsonValuesEqual form.engine.formData engine.formData = true := hengine ▸ hsame
    rw [Engine.Form.DataExact, if_pos hequal] at hexact
    have hrevision := (moveArrayItem_revisions he).1
    cases hchanged : moved.dataChanged with
    | false => rfl
    | true =>
      rw [hchanged, if_pos rfl] at hrevision
      omega
  rw [hstays, if_neg Bool.false_ne_true] at hform
  obtain ⟨ids, hsource, hdestination, hreplaced⟩ := Engine.Form.moveArrayItem_items he
  have hlt := Engine.Form.findIdx?_lt hsource
  obtain ⟨hlt', _⟩ := List.getElem?_eq_some_iff.mp hdestination
  have hne : moved.source ≠ moved.destination := by
    rcases Engine.Form.moveArrayItem_cases he with
      ⟨_, _, hr⟩ | ⟨_, _, _, _, _, _, _, _, hs, hd, _, _, hr, _⟩
    · cases hr
    · cases hr
      exact (Engine.Form.moveDestination_lt (Engine.Form.findIdx?_lt hs) hd).2.symm
  rw [← hengine] at hreplaced
  have hkept : form'.externalFindingBatches.filter (fun batch => !batch.findings.isEmpty) =
      form'.externalFindingBatches := by
    refine List.filter_eq_self.mpr fun batch hbatch => ?_
    rw [hform] at hbatch
    obtain ⟨original, hmem, rfl⟩ := List.mem_map.mp hbatch
    simpa using rebaseBatch_ne_nil _ (hord original hmem).1
  refine ⟨_, form'.externalFindingBatches,
    follows_swapLocation hinv hinv' hlt hlt' hne hreplaced _, ?_, hkept.symm⟩
  rw [hform]
  exact List.forall₂_map_right_iff.mpr (List.forall₂_same.mpr fun batch _ =>
    relocated_rebaseBatch _ batch)

/-! ## Rearrangements -/

end Form

/-- Operations that may rearrange items over data that stay equal. -/
def Operation.rearranges : Operation → Bool
  | .moveItem .. | .transact _ | .tryTransact .. | .reset => true
  | _ => false

/-- Where a finding goes whose item is gone: a reset leaves it in place. -/
def Operation.lost : Operation → Pointer → Option Pointer
  | .reset => some
  | _ => fun _ => none

namespace Form

theorem findings_follow (h : formSystem.Reachable form) (operation : WellFormedOperation)
    (hrearranges : operation.1.rearranges = true)
    (hsame : jsonValuesEqual form.formData (form.step operation.1).1.formData = true) :
    form.FindingsFollow (form.step operation.1).1 operation.1.lost := by
  have hinv := reachable_inv h
  have hord := reachable_ordered h
  have hinv' := (step_effect hinv operation).inv
  obtain ⟨operation, hwf⟩ := operation
  cases operation with
  | moveItem direction array item => exact moveItem_findings hinv hinv' hord hsame rfl
  | transact operations => exact transact_findings hinv hinv' hord hwf hsame rfl
  | tryTransact operations closure => exact tryTransact_findings hinv hinv' hord hwf hsame rfl
  | reset => exact reset_findings hinv hinv' hsame
  | _ => cases hrearranges

end Form

/-! ## An item that only the current data have -/

namespace Sample

/-- The form built on a list of two equal strings. -/
def pair : Form :=
  { empty with engine := { empty.engine with
      arrays := [⟨array, [⟨1, [⟨item, none, none, false⟩]⟩, ⟨2, [⟨item, none, none, false⟩]⟩],
        false⟩]
      nextItemIdentity := 3
      baselineArrayIdentities := [[1, 2]]
      baseline := formData [.string "", .string ""]
      formData := formData [.string "", .string ""] } }

theorem pair_reachable : formSystem.Reachable pair :=
  .init ⟨{ definition := strings, formData := formData [.string "", .string ""] }, 0, by decide,
    rfl⟩

def review : ExternalFindingBatch :=
  ⟨"server", ⟨0, 2⟩, [⟨"review", ["a", "1"], .object [], true⟩]⟩

theorem review_wf : (Operation.applyExternalFindings review).WF := by
  change ∀ finding ∈ review.findings, finding.parameters.WF
  decide

/-- The first item is gone, a third one has its value, and a finding is on the third. -/
def replaced : Form :=
  formSystem.run pair [⟨.removeItem (pair.identity 1) (pair.item 1), trivial⟩,
    ⟨.appendItem (pair.identity 1), trivial⟩, ⟨.applyExternalFindings review, review_wf⟩]

theorem replaced_reachable : formSystem.Reachable replaced := pair_reachable.run _

end Sample

namespace Form

open Sample

theorem findings_follow_reset :
    jsonValuesEqual replaced.formData (replaced.step .reset).1.formData = true ∧
    replaced.FindingsFollow (replaced.step .reset).1 some :=
  ⟨by decide, findings_follow replaced_reachable ⟨.reset, trivial⟩ rfl (by decide)⟩

/-- The third item does not survive, and its finding is on the second one afterwards. -/
theorem reset_leaves_finding : formSystem.Reachable replaced ∧
    jsonValuesEqual replaced.formData (replaced.step .reset).1.formData = true ∧
    replaced.engine.arrayItemIdentities ["a"] = some [2, 3] ∧
    (replaced.step .reset).1.engine.arrayItemIdentities ["a"] = some [1, 2] ∧
    replaced.externalFindingBatches = [review] ∧
    (replaced.step .reset).1.externalFindingBatches = [review] :=
  ⟨replaced_reachable, by decide, rfl, rfl, by decide, by decide⟩

end Form

end Schemaform
