import Schemaform.Engine.LifecycleSpec

/-!
# Engine.HostSpec

The commit of a host transaction.

* `clearItems`, `clearItemWrites_ok`: all item writes at once, none of them failing.
* `takeItems_spec`: the items of a checked topology, old ones by identity, new ones off the counter.
* `HostWrites`: every change of the data is announced by a write.
* `applyHostTransaction_step`: such a commit keeps `Form.Inv`; a failing one changes nothing.
-/

namespace Schemaform.Engine

open ListEdit

theorem clearWritten_definition (writes : List Pointer) (c : ControlState) :
    (Form.clearWritten writes c).definition = c.definition := by
  unfold Form.clearWritten
  split <;> rfl

namespace Form

/-! ## Item writes -/

/-- The bindings written below one item. -/
def itemBindings (writes : List HostItemWrite) (array identity : Nat) : List Pointer :=
  (writes.filter fun w => w.array == array && w.identity == identity).map (·.binding)

def clearItem (writes : List HostItemWrite) (array : Nat) (item : ArrayItemState) :
    ArrayItemState :=
  item.map (clearWritten (itemBindings writes array item.identity))

/-- Every item cleared of what any of the writes reaches. -/
def clearItems (form : Form) (writes : List HostItemWrite) : Form :=
  { form with
    arrays := form.arrays.mapIdx fun k array =>
      { array with items := array.items.map (clearItem writes k) } }

theorem clearWritten_nil (c : ControlState) : clearWritten [] c = c := rfl

theorem clearWritten_cons (w : Pointer) (ws : List Pointer) (c : ControlState) :
    clearWritten (w :: ws) c = clearWritten ws (clearWritten [w] c) := by
  have hbinding : (clearWritten [w] c).definition.binding = c.definition.binding := by
    rw [clearWritten_definition]
  simp only [clearWritten, List.any_cons, List.any_nil, Bool.or_false] at *
  rw [hbinding]
  by_cases hw : intersects w c.definition.binding = true <;>
    by_cases hws : (ws.any (intersects · c.definition.binding)) = true <;>
    simp [hw, hws, ControlState.clearEditState]

theorem clearWritten_eq_self {ws : List Pointer} {c : ControlState}
    (h : clearsWritten ws c = false) : clearWritten ws c = c := by
  unfold clearWritten
  split
  · rename_i hw
    simp only [clearsWritten, hw, Bool.true_and, ControlState.hasEditState,
      Bool.or_eq_false_iff] at h
    obtain ⟨d, buffer, blocker, touched⟩ := c
    cases buffer <;> cases blocker <;> simp_all [ControlState.clearEditState]
  · rfl

theorem item_map_id (item : ArrayItemState) : item.map (clearWritten []) = item := by
  simp only [ArrayItemState.map]
  have : item.controls.map (clearWritten []) = item.controls :=
    (List.map_congr_left fun c _ => clearWritten_nil c).trans (List.map_id _)
  rw [this]

theorem clearItem_nil (k : Nat) (item : ArrayItemState) : clearItem [] k item = item :=
  item_map_id item

theorem clearItem_hit {w : HostItemWrite} {item : ArrayItemState}
    (h : item.identity = w.identity) :
    clearItem [w] w.array item = item.map (clearWritten [w.binding]) := by
  simp [clearItem, itemBindings, h]

theorem clearItem_miss {w : HostItemWrite} {k : Nat} {item : ArrayItemState}
    (h : w.array ≠ k ∨ item.identity ≠ w.identity) : clearItem [w] k item = item := by
  have hbindings : itemBindings [w] k item.identity = [] := by
    simp only [itemBindings, List.map_eq_nil_iff, List.filter_eq_nil_iff, List.mem_singleton]
    rintro _ rfl
    simp only [Bool.and_eq_true, beq_iff_eq, not_and]
    intro hk hid
    exact h.elim (fun h => h hk) fun h => h hid.symm
  rw [clearItem, hbindings, item_map_id]

/-- Two items of one identity are the same item. -/
theorem identity_index {items : List ArrayItemState} (hnd : (items.map (·.identity)).Nodup)
    {i j : Nat} {a b : ArrayItemState} (hi : items[i]? = some a) (hj : items[j]? = some b)
    (h : a.identity = b.identity) : i = j := by
  have hi' : (items.map (·.identity))[i]? = some a.identity := getElem?_of_map hi
  have hj' : (items.map (·.identity))[j]? = some a.identity := h ▸ getElem?_of_map hj
  obtain ⟨hlt, hi'⟩ := List.getElem?_eq_some_iff.mp hi'
  obtain ⟨hlt', hj'⟩ := List.getElem?_eq_some_iff.mp hj'
  exact (List.Nodup.getElem_inj_iff hnd).mp (hi'.trans hj'.symm)

theorem clearItem_cons (w : HostItemWrite) (ws : List HostItemWrite) (k : Nat)
    (item : ArrayItemState) :
    clearItem (w :: ws) k item = clearItem ws k (clearItem [w] k item) := by
  simp only [clearItem, itemBindings, List.filter_cons, List.filter_nil]
  cases hw : w.array == k && w.identity == item.identity
  · simp only [Bool.false_eq_true, if_false, List.map_nil, item_map_id]
  · simp only [if_true, List.map_cons, List.map_nil, ArrayItemState.map, List.map_map]
    congr 1
    exact List.map_congr_left fun c _ => clearWritten_cons _ _ c

theorem clearItems_nil (form : Form) : form.clearItems [] = form := by
  have h : form.arrays.mapIdx (fun k array =>
      { array with items := array.items.map (clearItem [] k) }) = form.arrays := by
    refine List.ext_getElem? fun k => ?_
    rw [List.getElem?_mapIdx]
    have hitems (array : ArrayState) : array.items.map (clearItem [] k) = array.items :=
      (List.map_congr_left fun item _ => clearItem_nil k item).trans (List.map_id _)
    simp only [hitems]
    exact Option.map_id_fun' ▸ rfl
  simp only [clearItems, h]

theorem clearItems_cons (form : Form) (w : HostItemWrite) (ws : List HostItemWrite) :
    form.clearItems (w :: ws) = (form.clearItems [w]).clearItems ws := by
  have h : form.arrays.mapIdx (fun k array =>
        { array with items := array.items.map (clearItem (w :: ws) k) }) =
      (form.arrays.mapIdx fun k array =>
        { array with items := array.items.map (clearItem [w] k) }).mapIdx fun k array =>
        { array with items := array.items.map (clearItem ws k) } := by
    refine List.ext_getElem? fun k => ?_
    simp only [List.getElem?_mapIdx, Option.map_map]
    refine congrArg (Option.map · _) (funext fun array => ?_)
    simp only [Function.comp, List.map_map]
    congr 1
    exact List.map_congr_left fun item _ => clearItem_cons w ws k item
  simp only [clearItems, h]

theorem clearItems_identities (form : Form) (writes : List HostItemWrite) :
    (form.clearItems writes).arrays.map (·.identities) = form.arrays.map (·.identities) := by
  refine List.ext_getElem? fun k => ?_
  simp only [clearItems, List.getElem?_map, List.getElem?_mapIdx, Option.map_map]
  refine congrArg (Option.map · _) (funext fun array => ?_)
  simp only [Function.comp, ArrayState.identities, List.map_map]
  rfl

/-- Every item write names an item of the form. -/
def ItemWritesFound (form : Form) (writes : List HostItemWrite) : Prop :=
  ∀ w ∈ writes, ∃ identities, (form.arrays.map (·.identities))[w.array]? = some identities ∧
    w.identity ∈ identities

/-- One write clears one item, since identities do not repeat. -/
theorem clearItemWrite_ok {form : Form} {w : HostItemWrite} {array : ArrayState}
    (ha : form.arrays[w.array]? = some array) (hnd : array.identities.Nodup)
    (hmem : w.identity ∈ array.identities) :
    ∃ changed, form.clearItemWrite w = some (form.clearItems [w], changed) ∧
      (changed = false → form.clearItems [w] = form) := by
  obtain ⟨item', hi', hid'⟩ := List.mem_map.mp hmem
  obtain ⟨index, hindex⟩ : ∃ index, array.items.findIdx? (·.identity == w.identity) = some index := by
    refine Option.isSome_iff_exists.mp ?_
    rw [List.findIdx?_isSome]
    exact List.any_eq_true.mpr ⟨item', hi', by simpa using hid'⟩
  obtain ⟨item, hitem, hid⟩ := findIdx?_some hindex
  have hid : item.identity = w.identity := by simpa using hid
  have hitems : array.items.map (clearItem [w] w.array) =
      array.items.modify index (ArrayItemState.map (clearWritten [w.binding])) := by
    refine List.ext_getElem? fun i => ?_
    rw [List.getElem?_map, List.getElem?_modify]
    by_cases hi : index = i
    · subst hi
      simp only [hitem, if_true, Option.map_eq_map, Option.map_some]
      exact congrArg some (clearItem_hit hid)
    · simp only [if_neg hi]
      cases hc : array.items[i]? with
      | none => rfl
      | some other =>
        refine congrArg some (clearItem_miss (.inr fun he => hi ?_))
        exact identity_index hnd hitem hc (hid.trans he.symm)
  have hset : form.setItems w.array
      (array.items.modify index (ArrayItemState.map (clearWritten [w.binding]))) =
      form.clearItems [w] := by
    have harrays : form.arrays.modify w.array (fun a => { a with
        items := array.items.modify index (ArrayItemState.map (clearWritten [w.binding])) }) =
        form.arrays.mapIdx fun k a => { a with items := a.items.map (clearItem [w] k) } := by
      refine List.ext_getElem? fun k => ?_
      rw [List.getElem?_modify, List.getElem?_mapIdx]
      by_cases hk : w.array = k
      · subst hk
        simp only [ha, if_true, Option.map_eq_map, Option.map_some, hitems]
      · simp only [if_neg hk]
        cases form.arrays[k]? with
        | none => rfl
        | some other =>
          have : other.items.map (clearItem [w] k) = other.items :=
            (List.map_congr_left fun item _ => clearItem_miss (.inl hk)).trans (List.map_id _)
          simp [this]
    simp only [setItems, clearItems, harrays]
  refine ⟨item.controls.any (clearsWritten [w.binding]), ?_, fun hch => ?_⟩
  · simp only [clearItemWrite, ha, Option.bind_eq_bind, Option.bind_some, hindex, hitem, hset]
    rfl
  · rw [← hset]
    have hsame : item.map (clearWritten [w.binding]) = item := by
      have : item.controls.map (clearWritten [w.binding]) = item.controls :=
        (List.map_congr_left fun c hc => clearWritten_eq_self
          (by simpa using List.any_eq_false.mp hch c hc)).trans (List.map_id _)
      simp only [ArrayItemState.map, this]
    rw [modify_eq_self hitem hsame]
    have := modify_eq_self (f := fun a : ArrayState => { a with items := array.items }) ha rfl
    simp only [setItems, this]

theorem clearItemWrites_ok {form : Form} {writes : List HostItemWrite}
    (hnd : ∀ a ∈ form.arrays, a.identities.Nodup) (hfound : form.ItemWritesFound writes) :
    ∃ changed, clearItemWrites writes form = (form.clearItems writes, .ok changed) ∧
      (changed = false → form.clearItems writes = form) := by
  induction writes generalizing form with
  | nil => exact ⟨false, by rw [clearItemWrites, clearItems_nil], fun _ => clearItems_nil form⟩
  | cons w ws ih =>
    obtain ⟨ids, hids, hmem⟩ := hfound w List.mem_cons_self
    rw [List.getElem?_map, Option.map_eq_some_iff] at hids
    obtain ⟨array, ha, rfl⟩ := hids
    obtain ⟨changed, hw, hsame⟩ := clearItemWrite_ok ha (hnd _ (List.mem_of_getElem? ha)) hmem
    have hids' := clearItems_identities form [w]
    obtain ⟨more, hws, hsame'⟩ := @ih (form.clearItems [w])
      (fun a ha => by
        have := List.mem_map_of_mem (f := fun a : ArrayState => a.identities) ha
        rw [hids'] at this
        obtain ⟨b, hb, he⟩ := List.mem_map.mp this
        exact he ▸ hnd b hb)
      (fun w hw => by rw [hids']; exact hfound w (List.mem_cons_of_mem _ hw))
    refine ⟨changed || more, ?_, fun h => ?_⟩
    · simp only [clearItemWrites, hw, hws, clearItems_cons form w ws]
    · rw [Bool.or_eq_false_iff] at h
      have h₁ := hsame h.1
      rw [clearItems_cons, h₁]
      rw [h₁] at hsame'
      exact hsame' h.2

/-! ## Topologies -/

/-- An entry of a topology and the item it becomes. -/
def Taken (definition : ArrayDefinition) (previous : List ArrayItemState) (n m : Nat) :
    HostArrayItem → ArrayItemState → Prop
  | .existing identity, item => item ∈ previous ∧ item.identity = identity
  | .fresh, item => ∃ i, n ≤ i ∧ i < m ∧ item = ArrayItemState.new i definition

theorem Taken.mono {definition : ArrayDefinition} {previous previous' : List ArrayItemState}
    {n n' m : Nat} {t : HostArrayItem} {item : ArrayItemState}
    (h : Taken definition previous n m t item) (hp : ∀ i ∈ previous, i ∈ previous') (hn : n' ≤ n) :
    Taken definition previous' n' m t item := by
  cases t with
  | existing identity => exact ⟨hp _ h.1, h.2⟩
  | fresh =>
    obtain ⟨i, hi, hm, rfl⟩ := h
    exact ⟨i, hn.trans hi, hm, rfl⟩

/-- The existing identities of a topology do not repeat and are items of the array. -/
theorem validExisting_iff {array : ArrayState} {topology : List HostArrayItem} {seen : List Nat} :
    validExisting array topology seen = true ↔
      (topology.filterMap fun | .existing i => some i | .fresh => none).Nodup ∧
      ∀ i, .existing i ∈ topology → i ∉ seen ∧ i ∈ array.identities := by
  induction topology generalizing seen with
  | nil => simp [validExisting]
  | cons t topology ih =>
    cases t with
    | fresh =>
      simp only [validExisting, ih, List.filterMap_cons]
      refine and_congr_right fun _ => forall_congr' fun i => ?_
      simp
    | existing j =>
      simp only [validExisting, Bool.and_eq_true, Bool.not_eq_true', List.contains_eq_mem,
        decide_eq_false_iff_not, decide_eq_true_eq, ih, List.filterMap_cons, List.nodup_cons,
        List.mem_filterMap, List.mem_cons, not_or]
      constructor
      · rintro ⟨⟨hj, hj'⟩, hnd, h⟩
        refine ⟨⟨?_, hnd⟩, ?_⟩
        · rintro ⟨t, ht, he⟩
          cases t with
          | existing i => cases he; exact (h _ ht).1.1 rfl
          | fresh => cases he
        · rintro i (he | ht)
          · cases he; exact ⟨hj, hj'⟩
          · exact ⟨(h i ht).1.2, (h i ht).2⟩
      · rintro ⟨⟨hnot, hnd⟩, h⟩
        refine ⟨h j (.inl rfl), hnd, fun i ht => ⟨⟨?_, (h i (.inr ht)).1⟩, (h i (.inr ht)).2⟩⟩
        rintro rfl
        exact hnot ⟨_, ht, rfl⟩

abbrev existingIdentities (topology : List HostArrayItem) : List Nat :=
  topology.filterMap fun | .existing i => some i | .fresh => none

theorem mem_existingIdentities {topology : List HostArrayItem} {i : Nat} :
    i ∈ existingIdentities topology ↔ .existing i ∈ topology := by
  simp only [existingIdentities, List.mem_filterMap]
  constructor
  · rintro ⟨t, ht, he⟩
    cases t with
    | existing j => cases he; exact ht
    | fresh => cases he
  · intro h
    exact ⟨_, h, rfl⟩

theorem takeItems_spec (definition : ArrayDefinition) {topology : List HostArrayItem}
    (previous : List ArrayItemState) (n : Nat) (hnd : (existingIdentities topology).Nodup)
    (hmem : ∀ i, .existing i ∈ topology → i ∈ previous.map (·.identity) ∧ i < n) :
    n ≤ (takeItems definition topology previous n).2 ∧
    List.Forall₂ (Taken definition previous n (takeItems definition topology previous n).2) topology
      (takeItems definition topology previous n).1 ∧
    ((takeItems definition topology previous n).1.map (·.identity)).Nodup ∧
    ∀ i ∈ (takeItems definition topology previous n).1.map (·.identity),
      .existing i ∈ topology ∨ n ≤ i ∧ i < (takeItems definition topology previous n).2 := by
  induction topology generalizing previous n with
  | nil => exact ⟨Nat.le_refl n, .nil, List.nodup_nil, by simp [takeItems]⟩
  | cons t topology ih =>
    cases t with
    | fresh =>
      obtain ⟨hle, hf, hnd', hmem'⟩ := ih previous (n + 1) hnd
        fun i hi => ⟨(hmem i (List.mem_cons_of_mem _ hi)).1,
          Nat.lt_succ_of_lt (hmem i (List.mem_cons_of_mem _ hi)).2⟩
      simp only [takeItems]
      refine ⟨by omega, .cons ⟨n, Nat.le_refl n, by omega, rfl⟩
        (hf.imp fun _ _ h => h.mono (fun _ h => h) (Nat.le_succ n)), ?_, ?_⟩
      · rw [List.map_cons, List.nodup_cons]
        refine ⟨fun h => ?_, hnd'⟩
        rcases hmem' _ h with h | h
        · exact absurd (hmem _ (List.mem_cons_of_mem _ h)).2 (Nat.lt_irrefl n)
        · exact absurd h.1 (Nat.not_succ_le_self n)
      · intro i hi
        rcases List.mem_cons.mp hi with hi | hi
        · change i = n at hi
          exact .inr ⟨by omega, by omega⟩
        · rcases hmem' i hi with h | h
          · exact .inl (List.mem_cons_of_mem _ h)
          · exact .inr ⟨by omega, h.2⟩
    | existing j =>
      obtain ⟨hj, hjn⟩ := hmem j List.mem_cons_self
      have hlt : previous.findIdx (·.identity == j) < previous.length := by
        obtain ⟨item, hi, he⟩ := List.mem_map.mp hj
        exact List.findIdx_lt_length_of_exists ⟨item, hi, by simpa using he⟩
      have hid : (previous[previous.findIdx (·.identity == j)]).identity = j := by
        simpa using List.findIdx_getElem (w := hlt)
      have hnot : j ∉ existingIdentities topology := (List.nodup_cons.mp hnd).1
      have hrest : ∀ i, .existing i ∈ topology →
          i ∈ (previous.eraseIdx (previous.findIdx (·.identity == j))).map (·.identity) ∧ i < n := by
        intro i hi
        obtain ⟨hi', hin⟩ := hmem i (List.mem_cons_of_mem _ hi)
        refine ⟨?_, hin⟩
        obtain ⟨item, hitem, rfl⟩ := List.mem_map.mp hi'
        obtain ⟨k, hk⟩ := List.mem_iff_getElem?.mp hitem
        refine List.mem_map.mpr ⟨item, List.mem_eraseIdx_iff_getElem?.mpr ⟨k, ?_, hk⟩, rfl⟩
        rintro rfl
        rw [List.getElem?_eq_getElem hlt] at hk
        cases hk
        rw [hid] at hi
        exact hnot (mem_existingIdentities.mpr hi)
      obtain ⟨hle, hf, hnd', hmem'⟩ := ih _ n (List.nodup_cons.mp hnd).2 hrest
      simp only [takeItems, List.getElem?_eq_getElem hlt, Option.toList_some, List.singleton_append]
      refine ⟨hle, .cons ⟨List.getElem_mem hlt, hid⟩ (hf.imp fun _ _ h =>
        h.mono (fun _ h => (List.eraseIdx_sublist _ _).subset h) (Nat.le_refl n)), ?_, ?_⟩
      · rw [List.map_cons, List.nodup_cons, hid]
        refine ⟨fun h => ?_, hnd'⟩
        rcases hmem' _ h with h | h
        · exact hnot (mem_existingIdentities.mpr h)
        · omega
      · intro i hi
        rcases List.mem_cons.mp hi with hi | hi
        · have hij : i = j := hi.trans hid
          rw [hij]
          exact .inl List.mem_cons_self
        · exact (hmem' i hi).imp_left (List.mem_cons_of_mem _)

/-- An array before and after its change. -/
structure Applied (formData : Value) (array array' : ArrayState) (change : HostArrayChange)
    (n m : Nat) : Prop where
  definition : array'.definition = array.definition
  touched : array'.touched = array.touched
  le : n ≤ m
  nodup : array'.identities.Nodup
  mem : ∀ i ∈ array'.identities, i ∈ array.identities ∨ n ≤ i ∧ i < m
  items : match change with
    | .replace => array'.items = (freshArrayItemsForData array.definition formData n).1
    | .preserve topology => List.Forall₂ (Taken array.definition array.items n m) topology
      array'.items

theorem applyChange_applied {candidate : Value} (formData : Value) {array : ArrayState}
    {change : HostArrayChange} {n : Nat} (hnd : array.identities.Nodup)
    (hlt : ∀ i ∈ array.identities, i < n) (hvalid : validChange candidate (array, change) = true) :
    Applied formData array (applyChange formData array change n).1 change n
      (applyChange formData array change n).2 := by
  cases change with
  | replace =>
    have hids := freshArrayItems_identities array.definition
      (arrayValues array.definition.binding formData).length n
    obtain ⟨hnd', hmem'⟩ := range'_fresh array.identities n
      (arrayValues array.definition.binding formData).length
    exact ⟨rfl, rfl, Nat.le_add_right n _, (congrArg List.Nodup hids).mpr hnd',
      fun i hi => hmem' i (hids ▸ hi), rfl⟩
  | preserve topology =>
    simp only [validChange, validTopology, Bool.and_eq_true, validExisting_iff] at hvalid
    simp only [applyChange]
    split
    · rename_i hsame
      refine ⟨rfl, rfl, Nat.le_refl n, hnd, fun i hi => .inl hi, ?_⟩
      rw [← beq_iff_eq.mp hsame, ArrayState.identities, List.map_map]
      dsimp only
      rw [List.forall₂_map_left_iff, List.forall₂_same]
      exact fun item hi => ⟨hi, rfl⟩
    · obtain ⟨hle, hf, hnd', hmem'⟩ := takeItems_spec array.definition array.items n
        hvalid.2.1 fun i hi => ⟨(hvalid.2.2 i hi).2, hlt i (hvalid.2.2 i hi).2⟩
      refine ⟨rfl, rfl, hle, hnd', fun i hi => (hmem' i hi).imp_left fun h => ?_, hf⟩
      exact (hvalid.2.2 i h).2

theorem applyChanges_applied {candidate : Value} (formData : Value) {arrays : List ArrayState}
    {changes : List HostArrayChange} {n : Nat} (hlen : changes.length = arrays.length)
    (hnd : ∀ a ∈ arrays, a.identities.Nodup) (hlt : ∀ a ∈ arrays, ∀ i ∈ a.identities, i < n)
    (hvalid : ∀ e ∈ arrays.zip changes, validChange candidate e = true) :
    IdentityPool.Rewrites (arrays.map (·.identities)) n
      ((applyChanges formData arrays changes n).1.map (·.identities))
      (applyChanges formData arrays changes n).2 ∧
    ∀ (k : Nat) (a' : ArrayState), (applyChanges formData arrays changes n).1[k]? = some a' →
      ∃ a change n' m, n ≤ n' ∧ arrays[k]? = some a ∧ changes[k]? = some change ∧
        Applied formData a a' change n' m := by
  induction arrays generalizing changes n with
  | nil => exact ⟨.nil n, fun k a' h => by cases changes <;> simp [applyChanges] at h⟩
  | cons a arrays ih =>
    cases changes with
    | nil => cases hlen
    | cons change changes =>
      have happ := applyChange_applied formData (hnd a List.mem_cons_self)
        (hlt a List.mem_cons_self) (hvalid (a, change) List.mem_cons_self)
      obtain ⟨hr, hmem⟩ := ih (n := (applyChange formData a change n).2) (Nat.succ.inj hlen)
        (fun b hb => hnd b (List.mem_cons_of_mem _ hb))
        (fun b hb i hi => (hlt b (List.mem_cons_of_mem _ hb) i hi).trans_le happ.le)
        (fun e he => hvalid e (List.mem_cons_of_mem _ he))
      refine ⟨.cons happ.le happ.nodup happ.mem hr, fun k a' h => ?_⟩
      cases k with
      | zero =>
        cases h
        exact ⟨a, change, _, _, Nat.le_refl n, rfl, rfl, happ⟩
      | succ k =>
        obtain ⟨b, change, n', m, hle, hb⟩ := hmem k a' h
        exact ⟨b, change, n', m, happ.le.trans hle, hb⟩

theorem applyChanges_definitions (formData : Value) (arrays : List ArrayState)
    (changes : List HostArrayChange) (n : Nat) :
    (applyChanges formData arrays changes n).1.map (·.definition) = arrays.map (·.definition) := by
  induction arrays generalizing changes n with
  | nil => cases changes <;> rfl
  | cons a arrays ih =>
    cases changes with
    | nil => rfl
    | cons change changes =>
      simp only [applyChanges, List.map_cons, ih]
      refine congrArg (· :: _) ?_
      cases change with
      | replace => rfl
      | preserve topology => simp only [applyChange]; split <;> rfl

theorem applyChanges_same {formData : Value} {arrays : List ArrayState}
    {changes : List HostArrayChange} {n : Nat}
    (h : (arrays.zip changes).any changesTopology = false) :
    applyChanges formData arrays changes n = (arrays, n) := by
  induction arrays generalizing changes n with
  | nil => cases changes <;> rfl
  | cons a arrays ih =>
    cases changes with
    | nil => rfl
    | cons change changes =>
      simp only [List.zip_cons_cons, List.any_cons, Bool.or_eq_false_iff] at h
      cases change with
      | replace => cases h.1
      | preserve topology =>
        have hsame : sameTopology a topology = true := by simpa [changesTopology] using h.1
        simp only [applyChanges, applyChange, hsame, if_true, ih h.2]

/-! ## The commit -/

/-- The spelling that is stored: the present one when the candidate is equal to it. -/
def committedData (form : Form) (formData : Value) : Value :=
  if jsonValuesEqual form.formData formData then form.formData else formData

def committed (form : Form) (formData : Value) (writes : List Pointer)
    (arrayChanges : List HostArrayChange) (itemWrites : List HostItemWrite) : Form :=
  let cleared := form.clearItems itemWrites
  let applied := applyChanges (form.committedData formData) cleared.arrays arrayChanges
    form.nextItemIdentity
  { form with
    controls := form.controls.map (clearWritten writes)
    formData := form.committedData formData
    arrays := applied.1
    nextItemIdentity := applied.2 }

section Commit

variable {form form' : Form} {formData : Value} {writes : List Pointer}
  {arrayChanges : List HostArrayChange} {itemWrites : List HostItemWrite}
  {r : Except CreateFormError Unit}

theorem applyHostTransaction_cases (hnd : ∀ a ∈ form.arrays, a.identities.Nodup)
    (hfound : form.ItemWritesFound itemWrites)
    (h : form.applyHostTransaction formData writes arrayChanges itemWrites = (form', r)) :
    (form' = form ∧ ∃ e, r = .error e) ∨
    (r = .ok () ∧ formData.isObject = true ∧ arrayChanges.length = form.arrays.length ∧
      (∀ e ∈ form.arrays.zip arrayChanges, validChange formData e = true) ∧
      ∃ stateChanged, form' = (form.committed formData writes arrayChanges itemWrites).advance
        (!jsonValuesEqual form.formData formData) stateChanged ∧
        (stateChanged = false → (form.arrays.zip arrayChanges).any changesTopology = false ∧
          form.controls.map (clearWritten writes) = form.controls ∧
          form.clearItems itemWrites = form)) := by
  simp only [applyHostTransaction] at h
  split at h
  · cases h; exact .inl ⟨rfl, _, rfl⟩
  · rename_i hg
    simp only [Bool.or_eq_true, Bool.not_eq_true', not_or, Bool.not_eq_false, bne_iff_ne,
      Decidable.not_not] at hg
    split at h
    · cases h; exact .inl ⟨rfl, _, rfl⟩
    · rename_i hvalid
      obtain ⟨changed, hok, hsame⟩ := @clearItemWrites_ok
        { form with controls := form.controls.map (clearWritten writes) } itemWrites hnd hfound
      rw [hok] at h
      dsimp only at h
      cases h
      refine .inr ⟨rfl, hg.1, hg.2, by simpa using hvalid,
        ((form.arrays.zip arrayChanges).any changesTopology ||
          form.controls.any (clearsWritten writes) || changed), ?_, fun hch => ?_⟩
      · cases hd : jsonValuesEqual form.formData formData <;>
          simp [committed, committedData, clearItems, hd]
      · simp only [Bool.or_eq_false_iff] at hch
        refine ⟨hch.1.1, ?_, ?_⟩
        · refine (List.map_congr_left fun c hc => clearWritten_eq_self ?_).trans (List.map_id _)
          simpa using List.any_eq_false.mp hch.1.2 c hc
        · have := congrArg Form.arrays (hsame hch.2)
          simp only [clearItems] at this ⊢
          rw [this]

/-- Every change of the data is announced: a static control keeps its value or is written, an item
that stays keeps its values wherever no item write reaches it. -/
structure HostWrites (form : Form) (formData : Value) (writes : List Pointer)
    (arrayChanges : List HostArrayChange) (itemWrites : List HostItemWrite) : Prop where
  found : form.ItemWritesFound itemWrites
  controls : ∀ c ∈ form.controls, writes.any (intersects · c.definition.binding) = false →
    SameValue (Pointer.resolve c.definition.binding form.formData)
      (Pointer.resolve c.definition.binding formData)
  items : ∀ (k : Nat) (array : ArrayState) (topology : List HostArrayItem),
    form.arrays[k]? = some array → arrayChanges[k]? = some (.preserve topology) →
    ∀ (i j : Nat) (item : ArrayItemState), array.items[i]? = some item →
    topology[j]? = some (.existing item.identity) → ∀ rel : Pointer,
    (itemBindings itemWrites k item.identity).any (intersects · rel) = false →
    SameValue (Pointer.resolve (arrayItemPointer array.definition.binding i ++ rel) form.formData)
      (Pointer.resolve (arrayItemPointer array.definition.binding j ++ rel) formData)

variable {definition : FormDefinition} {numbers : NumberInput}

theorem committedData_wf (hinv : form.Inv definition numbers) (hwf : formData.WF) :
    (form.committedData formData).WF := by
  unfold committedData
  split
  · exact hinv.formData_wf
  · exact hwf

theorem committedData_equal (hinv : form.Inv definition numbers) (hwf : formData.WF) :
    jsonValuesEqual formData (form.committedData formData) = true := by
  unfold committedData
  split
  · rename_i h
    exact jsonValuesEqual_symm hinv.formData_wf hwf h
  · exact jsonValuesEqual_refl formData

theorem SameValue.trans_resolve {a b c : Value} (ha : a.WF) (hb : b.WF) (hc : c.WF)
    {p q : Pointer} (h : SameValue (Pointer.resolve p a) (Pointer.resolve q b))
    (heq : jsonValuesEqual b c = true) :
    SameValue (Pointer.resolve p a) (Pointer.resolve q c) := by
  have hbc := resolve_congr hb hc heq q
  generalize hu : Pointer.resolve p a = u at h
  generalize hv : Pointer.resolve q b = v at h hbc
  generalize hw : Pointer.resolve q c = w at hbc
  cases h with
  | none => cases hbc; exact .none
  | @some x y hxy =>
    cases hbc with
    | @some _ z hyz =>
      exact .some (jsonValuesEqual_trans (Pointer.WF_resolve ha hu) (Pointer.WF_resolve hb hv)
        (Pointer.WF_resolve hc hw) hxy hyz)

theorem getElem?_clearItems (form : Form) (writes : List HostItemWrite) (k : Nat) :
    (form.clearItems writes).arrays[k]? =
      (form.arrays[k]?).map fun a => { a with items := a.items.map (clearItem writes k) } := by
  simp only [clearItems, List.getElem?_mapIdx]

theorem clearItems_definitions (form : Form) (writes : List HostItemWrite) :
    (form.clearItems writes).arrays.map (·.definition) = form.arrays.map (·.definition) := by
  refine List.ext_getElem? fun k => ?_
  rw [List.getElem?_map, List.getElem?_map, getElem?_clearItems, Option.map_map]
  rfl

theorem identities_clear (a : ArrayState) (writes : List HostItemWrite) (k : Nat) :
    ({ a with items := a.items.map (clearItem writes k) } : ArrayState).identities =
      a.identities := by
  simp only [ArrayState.identities, List.map_map]
  rfl

theorem validChange_clear {a : ArrayState} {change : HostArrayChange} {k : Nat}
    (h : validChange formData (a, change) = true) :
    validChange formData ({ a with items := a.items.map (clearItem itemWrites k) }, change) =
      true := by
  cases change with
  | replace => rfl
  | preserve topology =>
    simp only [validChange, validTopology, Bool.and_eq_true, validExisting_iff,
      identities_clear] at h ⊢
    exact h

theorem committed_applied (hinv : form.Inv definition numbers)
    (hlen : arrayChanges.length = form.arrays.length)
    (hvalid : ∀ e ∈ form.arrays.zip arrayChanges, validChange formData e = true) :
    IdentityPool.Rewrites (form.arrays.map (·.identities)) form.nextItemIdentity
      ((form.committed formData writes arrayChanges itemWrites).arrays.map (·.identities))
      (form.committed formData writes arrayChanges itemWrites).nextItemIdentity ∧
    ∀ (k : Nat) (a' : ArrayState),
      (form.committed formData writes arrayChanges itemWrites).arrays[k]? = some a' →
      ∃ a change n m, form.nextItemIdentity ≤ n ∧ form.arrays[k]? = some a ∧
        arrayChanges[k]? = some change ∧ Applied (form.committedData formData)
          { a with items := a.items.map (clearItem itemWrites k) } a' change n m := by
  have hids := clearItems_identities form itemWrites
  have hmem (a : ArrayState) (ha : a ∈ (form.clearItems itemWrites).arrays) :
      ∃ b ∈ form.arrays, a.identities = b.identities := by
    have := List.mem_map_of_mem (f := fun a : ArrayState => a.identities) ha
    rw [hids] at this
    obtain ⟨b, hb, he⟩ := List.mem_map.mp this
    exact ⟨b, hb, he.symm⟩
  obtain ⟨hr, hget⟩ := @applyChanges_applied formData (form.committedData formData)
    (form.clearItems itemWrites).arrays arrayChanges form.nextItemIdentity
    (by rw [hlen, ← List.length_map (f := fun a : ArrayState => a.identities), ← hids,
      List.length_map])
    (fun a ha => by
      obtain ⟨b, hb, he⟩ := hmem a ha
      exact he ▸ hinv.identities_nodup b hb)
    (fun a ha i hi => by
      obtain ⟨b, hb, he⟩ := hmem a ha
      exact hinv.pool.current_lt i
        (List.mem_flatten.mpr ⟨_, List.mem_map_of_mem hb, he ▸ hi⟩))
    (fun e he => by
      obtain ⟨k, hk⟩ := List.mem_iff_getElem?.mp he
      obtain ⟨ha, hc⟩ := List.getElem?_zip_eq_some.mp hk
      rw [getElem?_clearItems, Option.map_eq_some_iff] at ha
      obtain ⟨a, ha, hae⟩ := ha
      have := hvalid (a, e.2) (List.mem_of_getElem? (List.getElem?_zip_eq_some.mpr ⟨ha, hc⟩))
      rw [show e = (e.1, e.2) from rfl, ← hae]
      exact validChange_clear this)
  rw [hids] at hr
  refine ⟨hr, fun k a' ha' => ?_⟩
  obtain ⟨a, change, n, m, hle, ha, hc, happ⟩ := hget k a' ha'
  rw [getElem?_clearItems, Option.map_eq_some_iff] at ha
  obtain ⟨a₀, ha₀, rfl⟩ := ha
  exact ⟨a₀, change, n, m, hle, ha₀, hc, happ⟩

/-- The identity that an entry of a topology ends up with, new ones from `n` on. -/
def Named (n : Nat) : HostArrayItem → Nat → Prop
  | .existing identity, i => i = identity
  | .fresh, i => n ≤ i

/-- The identities of an array after the commit. -/
theorem committed_identities (hinv : form.Inv definition numbers)
    (hlen : arrayChanges.length = form.arrays.length)
    (hvalid : ∀ e ∈ form.arrays.zip arrayChanges, validChange formData e = true) {k : Nat}
    {a' : ArrayState}
    (ha' : (form.committed formData writes arrayChanges itemWrites).arrays[k]? = some a') :
    ∃ a change, form.arrays[k]? = some a ∧ arrayChanges[k]? = some change ∧
      a'.definition = a.definition ∧
      match change with
      | .replace => ∀ i ∈ a'.identities, form.nextItemIdentity ≤ i
      | .preserve topology => List.Forall₂ (Named form.nextItemIdentity) topology a'.identities := by
  obtain ⟨a, change, n, m, hle, ha, hc, happ⟩ := (committed_applied hinv hlen hvalid).2 k a' ha'
  refine ⟨a, change, ha, hc, happ.definition, ?_⟩
  cases change with
  | replace =>
    have hitems : a'.items = _ := happ.items
    intro i hi
    rw [ArrayState.identities, hitems, freshArrayItemsForData, freshArrayItems_identities] at hi
    have := List.mem_range'.mp hi
    omega
  | preserve topology =>
    have hf : List.Forall₂ _ topology a'.items := happ.items
    dsimp only
    rw [ArrayState.identities, List.forall₂_map_right_iff]
    refine hf.imp fun entry item htaken => ?_
    cases entry with
    | existing identity => exact htaken.2
    | fresh =>
      obtain ⟨i, hi, _, rfl⟩ := htaken
      exact hle.trans hi

/-- An item after the commit is new, or stood in the array and its topology entry names it. -/
theorem committed_item (hinv : form.Inv definition numbers)
    (hlen : arrayChanges.length = form.arrays.length)
    (hvalid : ∀ e ∈ form.arrays.zip arrayChanges, validChange formData e = true) {k j : Nat}
    {a' : ArrayState} {item' : ArrayItemState}
    (ha' : (form.committed formData writes arrayChanges itemWrites).arrays[k]? = some a')
    (hi' : a'.items[j]? = some item') :
    (∃ identity, item' = ArrayItemState.new identity a'.definition) ∨
    ∃ (a : ArrayState) (topology : List HostArrayItem) (i : Nat) (item : ArrayItemState),
      form.arrays[k]? = some a ∧ a'.definition = a.definition ∧
      arrayChanges[k]? = some (.preserve topology) ∧ a.items[i]? = some item ∧
      topology[j]? = some (.existing item.identity) ∧ item' = clearItem itemWrites k item := by
  obtain ⟨a, change, n, m, _, ha, hc, happ⟩ := (committed_applied hinv hlen hvalid).2 k a' ha'
  cases change with
  | replace =>
    have hitems : a'.items = _ := happ.items
    rw [hitems] at hi'
    obtain ⟨identity, rfl⟩ := mem_freshArrayItems (List.mem_of_getElem? hi')
    exact .inl ⟨identity, congrArg _ happ.definition.symm⟩
  | preserve topology =>
    have hf : List.Forall₂ _ topology a'.items := happ.items
    have hrel := forall₂_getElem? hf j
    rw [hi'] at hrel
    generalize ht : topology[j]? = t at hrel
    cases hrel with
    | @some t _ htaken =>
      cases t with
      | fresh =>
        obtain ⟨i, _, _, rfl⟩ := htaken
        exact .inl ⟨i, congrArg _ happ.definition.symm⟩
      | existing identity =>
        obtain ⟨hmem, rfl⟩ := htaken
        obtain ⟨item, hitem, rfl⟩ := List.mem_map.mp hmem
        obtain ⟨i, hi⟩ := List.mem_iff_getElem?.mp hitem
        exact .inr ⟨a, topology, i, item, ha, happ.definition, hc, hi, ht, rfl⟩

theorem committed_length (hinv : form.Inv definition numbers) (hwf : formData.WF)
    (hlen : arrayChanges.length = form.arrays.length)
    (hvalid : ∀ e ∈ form.arrays.zip arrayChanges, validChange formData e = true) :
    ∀ a' ∈ (form.committed formData writes arrayChanges itemWrites).arrays, a'.items.length =
      (arrayValues a'.definition.binding (form.committedData formData)).length := by
  intro a' hmem
  obtain ⟨k, ha'⟩ := List.mem_iff_getElem?.mp hmem
  obtain ⟨a, change, n, m, _, ha, hc, happ⟩ := (committed_applied hinv hlen hvalid).2 k a' ha'
  rw [happ.definition]
  cases change with
  | replace =>
    have hitems : a'.items = _ := happ.items
    rw [hitems, freshArrayItemsForData, freshArrayItems_length]
  | preserve topology =>
    have hf : List.Forall₂ _ topology a'.items := happ.items
    have hv := hvalid (a, .preserve topology)
      (List.mem_of_getElem? (List.getElem?_zip_eq_some.mpr ⟨ha, hc⟩))
    simp only [validChange, validTopology, Bool.and_eq_true, beq_iff_eq] at hv
    rw [← hf.length_eq, hv.1]
    exact length_arrayValues_congr hwf (committedData_wf hinv hwf) (committedData_equal hinv hwf)

theorem clearItem_controls (writes : List HostItemWrite) (k : Nat) (item : ArrayItemState) :
    (clearItem writes k item).controls.map (·.definition) = item.controls.map (·.definition) := by
  simp only [clearItem, ArrayItemState.map, List.map_map]
  exact List.map_congr_left fun c _ => clearWritten_definition _ c

theorem committed_shaped (hinv : form.Inv definition numbers)
    (hlen : arrayChanges.length = form.arrays.length)
    (hvalid : ∀ e ∈ form.arrays.zip arrayChanges, validChange formData e = true) :
    (form.committed formData writes arrayChanges itemWrites).Shaped definition := by
  refine ⟨?_, ?_, fun a' hmem item' hi' => ?_⟩
  · rw [← hinv.shaped.controls]
    simp only [committed, List.map_map]
    exact List.map_congr_left fun c _ => clearWritten_definition _ c
  · rw [← hinv.shaped.arrays, ← clearItems_definitions form itemWrites]
    exact applyChanges_definitions _ _ _ _
  · obtain ⟨k, ha'⟩ := List.mem_iff_getElem?.mp hmem
    obtain ⟨j, hj⟩ := List.mem_iff_getElem?.mp hi'
    rcases committed_item hinv hlen hvalid ha' hj with ⟨identity, rfl⟩ |
      ⟨a, topology, i, item, ha, hdef, _, hi, _, rfl⟩
    · exact new_controls identity a'.definition
    · rw [clearItem_controls, hdef]
      exact hinv.shaped.items a (List.mem_of_getElem? ha) item (List.mem_of_getElem? hi)

theorem committed_pool (hinv : form.Inv definition numbers)
    (hlen : arrayChanges.length = form.arrays.length)
    (hvalid : ∀ e ∈ form.arrays.zip arrayChanges, validChange formData e = true) :
    IdentityPool.Step form.pool (form.committed formData writes arrayChanges itemWrites).pool :=
  pool_step hinv.pool rfl (committed_applied hinv hlen hvalid).1

/-- A control cleared where it is written stays coherent when it is announced elsewhere. -/
theorem clearWritten_coherent {ws : List Pointer} {c : ControlState} {current current' : Option Value}
    (h : ControlCoherent numbers current c)
    (hs : ws.any (intersects · c.definition.binding) = false → SameValue current current')
    (hw : ∀ v, current = some v → v.WF) (hw' : ∀ v, current' = some v → v.WF) :
    ControlCoherent numbers current' (clearWritten ws c) := by
  unfold clearWritten
  split
  · exact ControlCoherent.clearEditState c
  · rename_i hn
    exact h.congr (hs (by simpa using hn)) hw hw'

theorem committed_inv (hinv : form.Inv definition numbers) (hwf : formData.WF)
    (hobj : formData.isObject = true) (hlen : arrayChanges.length = form.arrays.length)
    (hvalid : ∀ e ∈ form.arrays.zip arrayChanges, validChange formData e = true)
    (hw : form.HostWrites formData writes arrayChanges itemWrites) :
    (form.committed formData writes arrayChanges itemWrites).Inv definition numbers := by
  have hwf' := committedData_wf hinv hwf
  have heq := committedData_equal hinv hwf
  have hresolve (q : Pointer) (v : Value)
      (h : Pointer.resolve q (form.committedData formData) = some v) : v.WF :=
    Pointer.WF_resolve hwf' h
  refine ⟨committed_shaped hinv hlen hvalid, hwf', ?_, hinv.baseline_wf, hinv.baseline_isObject,
    coherent_iff.mpr ⟨?_, committed_length hinv hwf hlen hvalid⟩, hinv.baselineItems,
    (committed_pool hinv hlen hvalid).wellFormed hinv.pool, hinv.batches⟩
  · change (form.committedData formData).isObject = true
    unfold committedData
    split
    · exact hinv.formData_isObject
    · exact hobj
  · rintro ⟨q, c'⟩ hmem
    rcases mem_boundControls.mp hmem with ⟨hc', rfl⟩ | ⟨a', hmem', j, item', hj, hc', rfl⟩
    · obtain ⟨c, hc, rfl⟩ := List.mem_map.mp hc'
      rw [clearWritten_definition]
      refine clearWritten_coherent (hinv.coherent.controls c hc) (fun hn => ?_)
        (fun v h => Pointer.WF_resolve hinv.formData_wf h) (hresolve _)
      exact SameValue.trans_resolve hinv.formData_wf hwf hwf' (hw.controls c hc hn) heq
    · obtain ⟨k, ha'⟩ := List.mem_iff_getElem?.mp hmem'
      rcases committed_item hinv hlen hvalid ha' hj with ⟨identity, rfl⟩ |
        ⟨a, topology, i, item, ha, hdef, hchange, hi, ht, rfl⟩
      · exact coherent_of_clear (mem_new_controls hc')
      · obtain ⟨c, hc, rfl⟩ := List.mem_map.mp hc'
        rw [clearWritten_definition, hdef]
        have hold := (coherent_iff.mp hinv.coherent).1
          (arrayItemPointer a.definition.binding i ++ c.definition.binding, c)
          (mem_boundControls.mpr (.inr ⟨a, List.mem_of_getElem? ha, i, item, hi, hc, rfl⟩))
        refine clearWritten_coherent hold (fun hn => ?_)
          (fun v h => Pointer.WF_resolve hinv.formData_wf h) (hresolve _)
        exact SameValue.trans_resolve hinv.formData_wf hwf hwf'
          (hw.items k a topology ha hchange i j item hi ht c.definition.binding hn) heq

theorem applyHostTransaction_step (hinv : form.Inv definition numbers) (hwf : formData.WF)
    (hw : form.HostWrites formData writes arrayChanges itemWrites)
    (h : form.applyHostTransaction formData writes arrayChanges itemWrites = (form', r)) :
    form.Step definition numbers form' := by
  rcases applyHostTransaction_cases hinv.identities_nodup hw.found h with
    ⟨rfl, _⟩ | ⟨_, hobj, hlen, hvalid, stateChanged, rfl, hsame⟩
  · exact .refl hinv
  · have hinv' := committed_inv hinv hwf hobj hlen hvalid hw
    have hpool : IdentityPool.Step form.pool
        (form.committed formData writes arrayChanges itemWrites).pool :=
      committed_pool hinv hlen hvalid
    refine ⟨hinv'.of_eq rfl rfl rfl rfl rfl rfl ?_, hpool, ?_⟩
    · simp [advance, hinv'.batches]
    · cases hd : jsonValuesEqual form.formData formData with
      | false => exact .inr (by simp [advance, committed])
      | true =>
        cases hst : stateChanged with
        | true => exact .inr (by simp [advance, committed])
        | false =>
          obtain ⟨htop, hcontrols, hitems⟩ := hsame hst
          refine .inl ?_
          simp [committed, committedData, hd, hcontrols, hitems, applyChanges_same htop,
            advance_false]

theorem applyHostTransaction_data (hinv : form.Inv definition numbers)
    (hw : form.HostWrites formData writes arrayChanges itemWrites)
    (h : form.applyHostTransaction formData writes arrayChanges itemWrites = (form', r)) :
    form.DataExact form' := by
  rcases applyHostTransaction_cases hinv.identities_nodup hw.found h with
    ⟨rfl, _⟩ | ⟨_, hobj, hlen, hvalid, stateChanged, rfl, hsame⟩
  · exact .refl form'
  · cases hd : jsonValuesEqual form.formData formData with
    | false =>
      exact .of_ne (by simp [committed, committedData, hd]) (by simp [advance, committed])
    | true =>
      exact .of_eq (by simp [committed, committedData, hd]) (by simp [advance, committed])

end Commit

end Form

end Schemaform.Engine
