import Schemaform.Form.NodeSpec
import Schemaform.Json.Preserve

/-!
# Form.HostSpec

A host transaction records what it changes.

* `Kept`: the value of a topology entry against the value its item started from.
* `Tracked`: the candidate differs from the form's data only where a write is recorded.
* `tracked_apply`, `tracked_foldl`: every queued operation keeps that, in any order.
* `Tracked.hostWrites`: so the commit finds every item write, and every change announced.
-/

namespace Schemaform

open Engine ListEdit

/-! ## Topologies of a form -/

theorem Engine.Form.Shaped.array_eq {definition : Engine.FormDefinition} {form : Engine.Form}
    (hd : definition.WellFormed) (hs : form.Shaped definition) {a : ArrayState}
    (ha : a ∈ form.arrays) : form.array a.definition.binding = some a := by
  obtain ⟨i, hi⟩ := List.mem_iff_getElem?.mp ha
  cases hf : form.array a.definition.binding with
  | none =>
    have := List.find?_eq_none.mp hf a ha
    simp at this
  | some b =>
    obtain ⟨hb, hbind⟩ := Engine.Form.array_mem hf
    obtain ⟨j, hj⟩ := List.mem_iff_getElem?.mp hb
    by_cases hij : i = j
    · subst hij
      rw [← hi, hj]
    · have hap := hs.arrays_apart hd hi hj hij
      rw [hbind] at hap
      exact absurd hap (apart_irrefl _)

/-- The topology of an array that no operation has touched. -/
def originalTopology (formData : Value) (array : ArrayState) : HostArrayTopology where
  binding := array.definition.binding
  original := array.definition.binding.resolve formData
  originalItems := array.identities.map .existing
  items := array.identities.map .existing
  authoritativeReplacement := false

theorem hostArrayTopologies_eq {form : Form} (hd : form.definition.inner.engine.WellFormed)
    (hs : form.engine.Shaped form.definition.inner.engine) :
    form.hostArrayTopologies = form.engine.arrays.map (originalTopology form.formData) := by
  rw [Form.hostArrayTopologies, ← hs.arrays, List.map_map]
  refine List.map_congr_left fun a ha => ?_
  simp only [Function.comp, Engine.Form.arrayItemIdentities, hs.array_eq hd ha, Option.map_some,
    Option.getD_some, originalTopology]

/-! ## Recorded item writes -/

theorem mem_itemBindings {writes : List HostItemWrite} {k identity : Nat} {b : Pointer} :
    b ∈ Engine.Form.itemBindings writes k identity ↔ ⟨k, identity, b⟩ ∈ writes := by
  simp only [Engine.Form.itemBindings, List.mem_map, List.mem_filter, Bool.and_eq_true, beq_iff_eq]
  constructor
  · rintro ⟨⟨_, _, _⟩, ⟨hw, rfl, rfl⟩, rfl⟩
    exact hw
  · intro hw
    exact ⟨_, ⟨hw, rfl, rfl⟩, rfl⟩

theorem topologyItemWrites_array {p : Pointer} {k : Nat} {topology : HostArrayTopology}
    {w : HostItemWrite} (h : w ∈ topologyItemWrites p k topology) :
    w.array = k ∧ .existing w.identity ∈ topology.items := by
  unfold topologyItemWrites at h
  split at h
  · obtain ⟨item, hitem, he⟩ := List.mem_filterMap.mp h
    cases item with
    | fresh => cases he
    | existing identity =>
      cases he
      exact ⟨rfl, hitem⟩
  · split at h
    · cases h
    · obtain ⟨⟨item, index⟩, hitem, he⟩ := List.mem_filterMap.mp h
      have hmem := List.mem_of_getElem? (List.mem_zipIdx_iff_getElem?.mp hitem)
      cases item with
      | fresh => cases he
      | existing identity =>
        dsimp only at he
        split at he
        · cases he
          exact ⟨rfl, hmem⟩
        · split at he
          · cases he
            exact ⟨rfl, hmem⟩
          · cases he

theorem mem_itemWritesFor {transaction : HostTransaction} {p : Pointer} {w : HostItemWrite} :
    w ∈ transaction.itemWritesFor p ↔ ∃ topology, transaction.arrayTopologies[w.array]? =
      some topology ∧ w ∈ topologyItemWrites p w.array topology := by
  simp only [HostTransaction.itemWritesFor, List.mem_flatMap, Prod.exists,
    List.mem_zipIdx_iff_getElem?]
  constructor
  · rintro ⟨topology, k, hk, hw⟩
    obtain ⟨rfl, _⟩ := topologyItemWrites_array hw
    exact ⟨topology, hk, hw⟩
  · rintro ⟨topology, hk, hw⟩
    exact ⟨topology, _, hk, hw⟩

/-- A write at or above the array reaches every item whole. -/
theorem topologyItemWrites_above {p : Pointer} {k identity : Nat} {topology : HostArrayTopology}
    (hp : topology.binding.startsWith p = true) (h : .existing identity ∈ topology.items) :
    ⟨k, identity, []⟩ ∈ topologyItemWrites p k topology := by
  rw [topologyItemWrites, if_pos hp]
  exact List.mem_filterMap.mpr ⟨_, h, rfl⟩

/-- A write inside an item is recorded below the item. -/
theorem topologyItemWrites_inside {k identity j : Nat} {topology : HostArrayTopology} {r : Pointer}
    (h : topology.items[j]? = some (.existing identity)) :
    ⟨k, identity, r⟩ ∈
      topologyItemWrites (arrayItemPointer topology.binding j ++ r) k topology := by
  have hlong : topology.binding.startsWith (arrayItemPointer topology.binding j ++ r) = false := by
    refine Bool.eq_false_iff.mpr fun hs => ?_
    obtain ⟨s, hs⟩ := Pointer.startsWith_iff.mp hs
    have := congrArg List.length hs
    simp only [arrayItemPointer, List.length_append, List.length_cons, List.length_nil] at this
    omega
  have hbelow : (arrayItemPointer topology.binding j ++ r).startsWith topology.binding = true :=
    Pointer.startsWith_iff.mpr ⟨Nat.repr j :: r, by simp [arrayItemPointer]⟩
  rw [topologyItemWrites, if_neg (by simp [hlong]), if_neg (by simp [hbelow])]
  refine List.mem_filterMap.mpr ⟨(_, j), List.mem_zipIdx_iff_getElem?.mpr h, ?_⟩
  dsimp only
  cases r with
  | nil => simp [Pointer.startsWith]
  | cons t r =>
    have habove : (arrayItemPointer topology.binding j).startsWith
        (arrayItemPointer topology.binding j ++ t :: r) = false := by
      refine Bool.eq_false_iff.mpr fun hs => ?_
      obtain ⟨s, hs⟩ := Pointer.startsWith_iff.mp hs
      have := congrArg List.length hs
      simp only [List.length_append, List.length_cons] at this
      omega
    have hinside : (arrayItemPointer topology.binding j ++ t :: r).startsWith
        (arrayItemPointer topology.binding j) = true := Pointer.startsWith_iff.mpr ⟨_, rfl⟩
    rw [habove, hinside]
    simp

/-! ## Kept values -/

/-- A fresh entry has any value. An existing one has its original value wherever nothing written
reaches it. -/
def Kept (array : ArrayState) (formData : Value) (written : Nat → List Pointer) :
    HostArrayItem → Value → Prop
  | .fresh, _ => True
  | .existing identity, v => ∃ (i : Nat) (item : ArrayItemState) (u : Value),
    array.items[i]? = some item ∧ item.identity = identity ∧
    (arrayValues array.definition.binding formData)[i]? = some u ∧
    ∀ rel, (written identity).any (Engine.Form.intersects · rel) = false →
      SameValue (Pointer.resolve rel u) (Pointer.resolve rel v)

theorem Kept.mem {array : ArrayState} {formData v : Value} {written : Nat → List Pointer}
    {identity : Nat} (h : Kept array formData written (.existing identity) v) :
    identity ∈ array.identities := by
  obtain ⟨i, item, u, hi, rfl, _, _⟩ := h
  exact List.mem_map_of_mem (List.mem_of_getElem? hi)

/-- Another value may take the place if it agrees wherever nothing new is written. -/
theorem Kept.rewrite {array : ArrayState} {formData v w : Value}
    {written written' : Nat → List Pointer}
    {t : HostArrayItem} (h : Kept array formData written t v)
    (hmono : ∀ identity, ∀ b ∈ written identity, b ∈ written' identity)
    (hw : ∀ identity, t = .existing identity → ∀ rel,
      (written' identity).any (Engine.Form.intersects · rel) = false →
      Pointer.resolve rel w = Pointer.resolve rel v) : Kept array formData written' t w := by
  cases t with
  | fresh => trivial
  | existing identity =>
    obtain ⟨i, item, u, hi, hid, hu, hs⟩ := h
    refine ⟨i, item, u, hi, hid, hu, fun rel hrel => ?_⟩
    rw [hw identity rfl rel hrel]
    refine hs rel (List.any_eq_false.mpr fun b hb => ?_)
    exact List.any_eq_false.mp hrel b (hmono identity b hb)

structure Tracked (form : Engine.Form) (transaction : HostTransaction) : Prop where
  candidate_wf : transaction.candidate.WF
  topologies : List.Forall₂ (fun (array : ArrayState) (topology : HostArrayTopology) =>
    topology.binding = array.definition.binding ∧
    topology.original = array.definition.binding.resolve form.formData ∧
    topology.originalItems = array.identities.map .existing) form.arrays transaction.arrayTopologies
  found : form.ItemWritesFound transaction.itemWrites
  controls : ∀ c ∈ form.controls,
    transaction.writes.any (Engine.Form.intersects · c.definition.binding) = false →
    SameValue (Pointer.resolve c.definition.binding form.formData)
      (Pointer.resolve c.definition.binding transaction.candidate)
  items : ∀ (k : Nat) (array : ArrayState) (topology : HostArrayTopology),
    form.arrays[k]? = some array → transaction.arrayTopologies[k]? = some topology →
    List.Forall₂ (Kept array form.formData (Engine.Form.itemBindings transaction.itemWrites k))
      topology.items (arrayValues array.definition.binding transaction.candidate)

theorem sameValue_refl (v : Option Value) : SameValue v v := by
  cases v with
  | none => exact .none
  | some v => exact .some (jsonValuesEqual_refl v)

/-- Every item with its own value. -/
theorem kept_original {definition : Engine.FormDefinition} {numbers : Engine.NumberInput}
    {form : Engine.Form}
    (hinv : form.Inv definition numbers) {array : ArrayState} (ha : array ∈ form.arrays)
    (written : Nat → List Pointer) {values : List Value}
    (hv : List.Forall₂ (fun a b => jsonValuesEqual a b = true)
      (arrayValues array.definition.binding form.formData) values)
    (hwf : ∀ v ∈ values, v.WF) :
    List.Forall₂ (Kept array form.formData written) (array.identities.map .existing) values := by
  have hlen := (Engine.Form.coherent_iff.mp hinv.coherent).2 array ha
  have hitems : array.items.length = values.length := hlen.trans hv.length_eq
  rw [ArrayState.identities, List.map_map, List.forall₂_map_left_iff]
  refine List.forall₂_iff_get.mpr ⟨hitems, fun i hi hi' => ?_⟩
  have hi₀ : i < (arrayValues array.definition.binding form.formData).length := hlen ▸ hi
  refine ⟨i, array.items[i], _, List.getElem?_eq_getElem hi, rfl, List.getElem?_eq_getElem hi₀,
    fun rel _ => ?_⟩
  exact resolve_congr (arrayValues_wf hinv.formData_wf _ (List.getElem_mem hi₀))
    (hwf _ (List.getElem_mem hi')) (hv.get hi₀ hi') rel

theorem arrayValues_congr {p : Pointer} {v w : Value}
    (h : SameValue (Pointer.resolve p v) (Pointer.resolve p w)) :
    List.Forall₂ (fun a b => jsonValuesEqual a b = true) (arrayValues p v) (arrayValues p w) := by
  unfold arrayValues
  generalize Pointer.resolve p v = c at h
  generalize Pointer.resolve p w = d at h
  cases h with
  | none => exact .nil
  | @some c d hcd =>
    cases c with
    | array items =>
      obtain ⟨items', rfl⟩ := jsonValuesEqual_array_left hcd
      exact jsonValuesEqual_array.mp hcd
    | _ =>
      cases d with
      | array items => simp [jsonValuesEqual_iff] at hcd
      | _ => exact .nil

theorem tracked_original {definition : Engine.FormDefinition} {numbers : Engine.NumberInput}
    {form : Form}
    (hdef : definition = form.definition.inner.engine) (hd : definition.WellFormed)
    (hinv : form.engine.Inv definition numbers) : Tracked form.engine form.hostTransaction := by
  subst hdef
  have htop := hostArrayTopologies_eq hd hinv.shaped
  refine ⟨hinv.formData_wf, ?_, fun w hw => absurd hw List.not_mem_nil, fun c _ _ => ?_, ?_⟩
  · change List.Forall₂ _ form.engine.arrays form.hostArrayTopologies
    rw [htop, List.forall₂_map_right_iff, List.forall₂_same]
    exact fun a _ => ⟨rfl, rfl, rfl⟩
  · exact sameValue_refl _
  · intro k array topology ha ht
    change form.hostArrayTopologies[k]? = some topology at ht
    rw [htop, List.getElem?_map, ha] at ht
    cases ht
    exact kept_original hinv (List.mem_of_getElem? ha) _ (forall₂_refl _)
      (arrayValues_wf hinv.formData_wf)

section Apply

variable {definition : Engine.FormDefinition} {numbers : Engine.NumberInput} {form : Engine.Form}
  {transaction : HostTransaction}

theorem Tracked.binding (h : Tracked form transaction) {k : Nat} {array : ArrayState}
    {topology : HostArrayTopology} (ha : form.arrays[k]? = some array)
    (ht : transaction.arrayTopologies[k]? = some topology) :
    topology.binding = array.definition.binding ∧
    topology.original = array.definition.binding.resolve form.formData ∧
    topology.originalItems = array.identities.map .existing := by
  have hrel := forall₂_getElem? h.topologies k
  rw [ha, ht] at hrel
  cases hrel with
  | some h => exact h

theorem Tracked.invalidate (h : Tracked form transaction) : Tracked form transaction.invalidate :=
  ⟨h.candidate_wf, h.topologies, h.found, h.controls, h.items⟩

theorem tracked_beginOperation (h : Tracked form transaction) :
    Tracked form transaction.beginOperation.1 := by
  unfold HostTransaction.beginOperation
  split
  · exact h
  · dsimp only
    split <;> exact ⟨h.candidate_wf, h.topologies, h.found, h.controls, h.items⟩

/-! ## Authoritative writes -/

theorem Write.root (v w : Value) : Write [] (some w) v w := by
  refine ⟨fun r => rfl, fun q hq => ?_, fun q t r h => ?_⟩
  · have : q.startsWith [] = true := Pointer.startsWith_iff.mpr ⟨q, rfl⟩
    rw [hq.2] at this
    cases this
  · exact absurd (congrArg List.length h) (by simp)

theorem forall₂_replicate_fresh {R : HostArrayItem → Value → Prop} (hR : ∀ v, R .fresh v)
    (values : List Value) : List.Forall₂ R (List.replicate values.length .fresh) values := by
  induction values with
  | nil => exact .nil
  | cons v values ih => exact .cons (hR v) ih

theorem optionalJsonValuesEqual_iff {a b : Option Value} :
    optionalJsonValuesEqual a b = true ↔ SameValue a b := by
  cases a <;> cases b <;> simp [optionalJsonValuesEqual]

/-- The binding of a topology after an authoritative write, and everything it was made with. -/
theorem update_fixed (topology : HostArrayTopology) (candidate : Value) (before : Option Value) :
    (topology.update candidate before).binding = topology.binding ∧
    (topology.update candidate before).original = topology.original ∧
    (topology.update candidate before).originalItems = topology.originalItems := by
  unfold HostArrayTopology.update
  dsimp only
  split <;> exact ⟨rfl, rfl, rfl⟩

/-- At or below the write: untouched with every item written, all fresh, or restored. -/
theorem update_kept (hinv : form.Inv definition numbers) {k : Nat} {array : ArrayState}
    (ha : form.arrays[k]? = some array) {topology : HostArrayTopology} {v w : Value}
    (hw : w.WF) {written written' : Nat → List Pointer}
    (hbinding : topology.binding = array.definition.binding)
    (horiginal : topology.original = array.definition.binding.resolve form.formData)
    (hitems : topology.originalItems = array.identities.map .existing)
    (hold : List.Forall₂ (Kept array form.formData written) topology.items
      (arrayValues array.definition.binding v))
    (hreached : ∀ identity, .existing identity ∈ topology.items → [] ∈ written' identity) :
    List.Forall₂ (Kept array form.formData written')
      (topology.update w (topology.binding.resolve v)).items
      (arrayValues array.definition.binding w) := by
  unfold HostArrayTopology.update
  dsimp only
  split
  · rename_i hsame
    rw [optionalJsonValuesEqual_iff, hbinding] at hsame
    have hlen := (arrayValues_congr hsame).length_eq
    refine List.forall₂_iff_get.mpr ⟨hold.length_eq.trans hlen, fun j hj hj' => ?_⟩
    have hkept := hold.get hj (hold.length_eq ▸ hj)
    generalize ht : topology.items.get ⟨j, hj⟩ = t at hkept
    cases t with
    | fresh => trivial
    | existing identity =>
      obtain ⟨i, item, u, hi, hid, hu, _⟩ := hkept
      refine ⟨i, item, u, hi, hid, hu, fun rel hrel => ?_⟩
      have hmem := hreached identity (ht ▸ List.get_mem _ _)
      have := List.any_eq_false.mp hrel [] hmem
      simp [Engine.Form.intersects, Pointer.startsWith] at this
  · cases hrestored : optionalJsonValuesEqual topology.original (topology.binding.resolve w) with
    | false =>
      simp only [Bool.not_false, if_true]
      rw [hbinding]
      exact forall₂_replicate_fresh (fun _ => trivial) _
    | true =>
      simp only [Bool.not_true, Bool.false_eq_true, if_false, hitems]
      rw [optionalJsonValuesEqual_iff, horiginal, hbinding] at hrestored
      exact kept_original hinv (List.mem_of_getElem? ha) _
        (arrayValues_congr hrestored) (arrayValues_wf hw)

theorem intersects_iff {p q : Pointer} : Engine.Form.intersects p q = false ↔ p.Apart q := by
  simp [Engine.Form.intersects, Pointer.Apart]

/-- Strictly inside an array: one item changes at most, and there the write is recorded. -/
theorem inside_kept {array : ArrayState} {formData : Value} {topology : HostArrayTopology}
    {v w : Value} {p : Pointer} {new : Option Value} (hw : Write p new v w) {t : String}
    {r : Pointer} (hp : p = array.definition.binding ++ t :: r)
    {written written' : Nat → List Pointer}
    (hmono : ∀ identity, ∀ b ∈ written identity, b ∈ written' identity)
    (hreached : ∀ j identity, topology.items[j]? = some (.existing identity) → t = Nat.repr j →
      r ∈ written' identity)
    (hold : List.Forall₂ (Kept array formData written) topology.items
      (arrayValues array.definition.binding v)) :
    List.Forall₂ (Kept array formData written') topology.items
      (arrayValues array.definition.binding w) := by
  have hnot : array.definition.binding.startsWith p = false := by
    refine Bool.eq_false_iff.mpr fun hs => ?_
    obtain ⟨s, hs⟩ := Pointer.startsWith_iff.mp hs
    have := congrArg List.length (hs.trans (by rw [hp]))
    simp only [List.length_append, List.length_cons] at this
    omega
  have hlen := Engine.Form.length_arrayValues_write hw hnot
  refine List.forall₂_iff_get.mpr ⟨hold.length_eq.trans hlen.symm, fun j hj hj' => ?_⟩
  have hjv : j < (arrayValues array.definition.binding v).length := hlen ▸ hj'
  refine (hold.get hj hjv).rewrite hmono fun identity ht rel hrel => ?_
  simp only [List.get_eq_getElem]
  rw [← resolve_arrayItem (List.getElem?_eq_getElem hj') rel,
    ← resolve_arrayItem (List.getElem?_eq_getElem hjv) rel]
  refine hw.apart _ ?_
  rw [hp, arrayItemPointer, List.append_assoc, apart_append_iff, List.singleton_append]
  by_cases htj : t = Nat.repr j
  · subst htj
    rw [Pointer.apart_cons]
    have hr := hreached j identity (by rw [List.getElem?_eq_getElem hj]; exact congrArg some ht) rfl
    exact intersects_iff.mp (by simpa using List.any_eq_false.mp hrel r hr)
  · simp [Pointer.Apart, Pointer.startsWith, List.isPrefixOf, htj, Ne.symm htj]

theorem tracked_authoritativeWrite (hinv : form.Inv definition numbers)
    (h : Tracked form transaction) {p : Pointer} {edit : Value → Option Value}
    (hedit : ∀ w, edit transaction.candidate = some w →
      w.WF ∧ ∃ new, Write p new transaction.candidate w) :
    Tracked form (transaction.authoritativeWrite p edit) := by
  unfold HostTransaction.authoritativeWrite
  split
  · exact h.invalidate
  · rename_i w hw
    obtain ⟨hwf, new, hw⟩ := hedit w hw
    have htops (k : Nat) (topology' : HostArrayTopology)
        (ht : (transaction.updateAuthoritativeArrays p w)[k]? = some topology') :
        ∃ topology, transaction.arrayTopologies[k]? = some topology ∧ topology' =
          if topology.binding.startsWith p then
            topology.update w (topology.binding.resolve transaction.candidate) else topology := by
      rw [HostTransaction.updateAuthoritativeArrays, List.getElem?_map] at ht
      obtain ⟨topology, ht₀, rfl⟩ := Option.map_eq_some_iff.mp ht
      exact ⟨topology, ht₀, rfl⟩
    refine ⟨hwf, ?_, fun x hx => ?_, fun c hc hcw => ?_, fun k array topology' ha ht' => ?_⟩
    · rw [HostTransaction.updateAuthoritativeArrays, List.forall₂_map_right_iff]
      refine h.topologies.imp fun array topology hfixed => ?_
      split
      · obtain ⟨hb, ho, hi⟩ := update_fixed topology w
          (topology.binding.resolve transaction.candidate)
        rw [hb, ho, hi]
        exact hfixed
      · exact hfixed
    · rcases List.mem_append.mp hx with hx | hx
      · exact h.found x hx
      · obtain ⟨topology, ht, hx⟩ := mem_itemWritesFor.mp hx
        obtain ⟨_, hmem⟩ := topologyItemWrites_array hx
        have hrel := forall₂_getElem? h.topologies x.array
        rw [ht] at hrel
        generalize ha : form.arrays[x.array]? = a at hrel
        cases hrel with
        | @some array _ _ =>
          obtain ⟨j, hj⟩ := List.mem_iff_getElem?.mp hmem
          have hkept := forall₂_getElem? (h.items x.array array topology ha ht) j
          rw [hj] at hkept
          generalize (arrayValues array.definition.binding transaction.candidate)[j]? = v at hkept
          cases hkept with
          | some hkept => exact ⟨array.identities, by rw [List.getElem?_map, ha]; rfl, hkept.mem⟩
    · rw [List.any_append, Bool.or_eq_false_iff] at hcw
      have hpc : p.Apart c.definition.binding := intersects_iff.mp (by simpa using hcw.2)
      rw [hw.apart _ hpc]
      exact h.controls c hc hcw.1
    · obtain ⟨topology, ht, rfl⟩ := htops k topology' ht'
      obtain ⟨hbinding, horiginal, hitems⟩ := h.binding ha ht
      have hold := h.items k array topology ha ht
      have hmono (identity : Nat) (b : Pointer)
          (hb : b ∈ Engine.Form.itemBindings transaction.itemWrites k identity) :
          b ∈ Engine.Form.itemBindings
            (transaction.itemWrites ++ transaction.itemWritesFor p) k identity :=
        mem_itemBindings.mpr (List.mem_append_left _ (mem_itemBindings.mp hb))
      have hnew (identity : Nat) (b : Pointer)
          (hb : ⟨k, identity, b⟩ ∈ topologyItemWrites p k topology) :
          b ∈ Engine.Form.itemBindings
            (transaction.itemWrites ++ transaction.itemWritesFor p) k identity :=
        mem_itemBindings.mpr (List.mem_append_right _ (mem_itemWritesFor.mpr ⟨topology, ht, hb⟩))
      split
      · rename_i habove
        exact update_kept hinv ha hwf hbinding horiginal hitems hold
          fun identity hmem => hnew identity [] (topologyItemWrites_above habove hmem)
      · rename_i hnot
        rcases Pointer.trichotomy p array.definition.binding with ⟨r, hr⟩ | ⟨t, r, hr⟩ | hap
        · exact absurd (Pointer.startsWith_iff.mpr ⟨r, hbinding.trans hr⟩) hnot
        · refine inside_kept hw hr hmono (fun j identity hj htj => hnew identity r ?_) hold
          have hpj : p = arrayItemPointer topology.binding j ++ r := by
            rw [hr, htj, hbinding, arrayItemPointer, List.append_assoc, List.singleton_append]
          rw [hpj]
          exact topologyItemWrites_inside hj
        · rw [Engine.Form.arrayValues_apart hw hap]
          exact hold.imp fun t v hkept => hkept.rewrite hmono fun _ _ _ _ => rfl

/-! ## Array operations -/

/-- The values and the items of an array are edited alike. -/
structure Parallel (editValues : List Value → List Value)
    (editItems : List HostArrayItem → List HostArrayItem) : Prop where
  related : ∀ (R : HostArrayItem → Value → Prop) (items : List HostArrayItem) (values : List Value),
    (∀ v, R .fresh v) → List.Forall₂ R items values →
    List.Forall₂ R (editItems items) (editValues values)
  wf : ∀ values, (∀ v ∈ values, v.WF) → ∀ v ∈ editValues values, v.WF

theorem tracked_editArray {α : Type} (hd : definition.WellFormed)
    (hinv : form.Inv definition numbers)
    (h : Tracked form transaction) {array : Pointer} {place : List HostArrayItem → Option α}
    {editValues : α → List Value → List Value}
    {editEntries : α → List HostArrayItem → List HostArrayItem}
    (hparallel : ∀ a, Parallel (editValues a) (editEntries a)) :
    Tracked form (transaction.editArray array place editValues editEntries) := by
  unfold HostTransaction.editArray
  split
  · exact h.invalidate
  rename_i index values topology hparts
  split
  · exact h.invalidate
  rename_i position hplace
  split
  · exact h.invalidate
  split
  · exact h.invalidate
  rename_i w hw
  obtain ⟨values', hvalues, hwrite⟩ := editItems_write hw
  have htarget : ∃ a, form.arrays[index]? = some a ∧ a.definition.binding = array ∧
      transaction.arrayTopologies[index]? = some topology := by
    simp only [HostTransaction.arrayParts, Option.bind_eq_bind, Option.bind_eq_some_iff] at hparts
    obtain ⟨i, hi, _, _, t, ht, he⟩ := hparts
    cases he
    obtain ⟨t', ht', hb⟩ := Engine.Form.findIdx?_some hi
    obtain rfl := Option.some.inj (ht.symm.trans ht')
    have hrel := forall₂_getElem? h.topologies index
    rw [ht] at hrel
    generalize ha : form.arrays[index]? = a at hrel
    cases hrel with
    | @some a _ hfixed => exact ⟨a, rfl, hfixed.1.symm.trans (by simpa using hb), ht⟩
  obtain ⟨a, ha, rfl, ht⟩ := htarget
  refine ⟨?_, ?_, h.found, fun c hc hcw => ?_, fun k array' topology' ha' ht' => ?_⟩
  · refine editItems_wf h.candidate_wf (fun values hv => (hparallel position).wf values ?_) hw
    exact Value.wf_array.mp (Pointer.WF_resolve h.candidate_wf hv)
  · refine List.forall₂_iff_get.mpr ⟨by simpa using h.topologies.length_eq, fun k hk hk' => ?_⟩
    have hfixed := h.topologies.get hk (h.topologies.length_eq ▸ hk)
    simp only [List.get_eq_getElem, List.getElem_modify] at hfixed ⊢
    split <;> exact hfixed
  · rw [hwrite.apart _ (hinv.shaped.control_array_apart hd hc (List.mem_of_getElem? ha)).symm]
    exact h.controls c hc hcw
  · obtain ⟨topology₀, ht₀, rfl⟩ := Engine.Form.getElem?_modify_some ht'
    have hold := h.items k array' topology₀ ha' ht₀
    by_cases hk : index = k
    · subst hk
      cases ha.symm.trans ha'
      rw [if_pos rfl, arrayValues_of_resolve hwrite.at_self]
      rw [arrayValues_of_resolve hvalues] at hold
      exact (hparallel position).related _ _ _ (fun _ => trivial) hold
    · rw [if_neg hk, Engine.Form.arrayValues_apart hwrite (hinv.shaped.arrays_apart hd ha ha' hk)]
      exact hold

theorem parallel_append {value : Value} (hv : value.WF) :
    Parallel (fun values => values ++ [value]) fun items => items ++ [.fresh] := by
  refine ⟨fun R items values hR hf => List.rel_append hf (.cons (hR value) .nil),
    fun values hwf v hmem => ?_⟩
  rcases List.mem_append.mp hmem with hmem | hmem
  · exact hwf v hmem
  · rw [List.mem_singleton.mp hmem]
    exact hv

theorem parallel_insertIdx (index : Nat) {value : Value} (hv : value.WF) :
    Parallel (fun values => values.insertIdx index value)
      fun items => items.insertIdx index .fresh := by
  refine ⟨fun R items values hR hf => forall₂_insertIdx hf index (hR value),
    fun values hwf v hmem => ?_⟩
  rcases List.eq_or_mem_of_mem_insertIdx hmem with rfl | hmem
  · exact hv
  · exact hwf v hmem

theorem parallel_eraseIdx (index : Nat) :
    Parallel (fun values => values.eraseIdx index) fun items => items.eraseIdx index :=
  ⟨fun _ _ _ _ hf => forall₂_eraseIdx hf index,
    fun _ hwf v hmem => hwf v (List.mem_of_mem_eraseIdx hmem)⟩

theorem parallel_swap (i j : Nat) :
    Parallel (fun values => swap values i j) fun items => swap items i j :=
  ⟨fun _ _ _ _ hf => forall₂_swap hf i j,
    fun values hwf v hmem => hwf v ((swap_perm values i j).mem_iff.mp hmem)⟩

/-! ## Queues -/

theorem tracked_apply (hd : definition.WellFormed) (hinv : form.Inv definition numbers)
    (h : Tracked form transaction) {operation : HostOperation} (hwf : operation.WF) :
    Tracked form (transaction.apply operation) := by
  have hbegin := tracked_beginOperation h
  unfold HostTransaction.apply
  dsimp only
  generalize transaction.beginOperation = begun at hbegin ⊢
  obtain ⟨transaction, begun⟩ := begun
  split
  · exact hbegin
  · cases operation with
    | set pointer value =>
      exact tracked_authoritativeWrite hinv hbegin fun w hw =>
        ⟨setBoundValue_wf hbegin.candidate_wf hwf hw, _, setBoundValue_write hw⟩
    | remove pointer =>
      exact tracked_authoritativeWrite hinv hbegin fun w hw =>
        ⟨takeBoundValue_wf hbegin.candidate_wf hw, _, takeBoundValue_write hbegin.candidate_wf hw⟩
    | replaceAll value =>
      refine tracked_authoritativeWrite hinv hbegin fun w hw => ?_
      cases hw
      exact ⟨hwf, _, Write.root _ _⟩
    | appendItem array value =>
      exact tracked_editArray hd hinv hbegin fun _ => parallel_append hwf
    | insertItemBefore array before value =>
      dsimp only [HostTransaction.insertItemBefore]
      split
      · exact hbegin.invalidate
      · exact tracked_editArray hd hinv hbegin fun index => parallel_insertIdx index hwf
    | removeItem array item =>
      dsimp only [HostTransaction.removeItem]
      split
      · exact hbegin.invalidate
      · exact tracked_editArray hd hinv hbegin fun index => parallel_eraseIdx index
    | moveItem direction array item =>
      dsimp only [HostTransaction.moveItem]
      split
      · exact hbegin.invalidate
      · exact tracked_editArray hd hinv hbegin fun position =>
          parallel_swap position.1 position.2

theorem tracked_foldl (hd : definition.WellFormed) (hinv : form.Inv definition numbers)
    (h : Tracked form transaction) {operations : List HostOperation}
    (hwf : ∀ o ∈ operations, o.WF) :
    Tracked form (operations.foldl HostTransaction.apply transaction) := by
  induction operations generalizing transaction with
  | nil => exact h
  | cons o operations ih =>
    rw [List.forall_mem_cons] at hwf
    exact ih (tracked_apply hd hinv h hwf.1) hwf.2

/-! ## The commit -/

/-- The data may be respelled before they are committed. -/
theorem Tracked.hostWrites (hinv : form.Inv definition numbers) (h : Tracked form transaction)
    {candidate : Value} (hwf : candidate.WF)
    (heq : jsonValuesEqual transaction.candidate candidate = true) :
    form.HostWrites candidate transaction.writes
      (transaction.arrayTopologies.map Schemaform.Form.hostArrayChange) transaction.itemWrites := by
  refine ⟨h.found, fun c hc hcw => ?_, ?_⟩
  · exact Engine.Form.SameValue.trans_resolve hinv.formData_wf h.candidate_wf hwf
      (h.controls c hc hcw) heq
  · intro k array items ha hchange i j item hi hj rel hrel
    rw [List.getElem?_map] at hchange
    obtain ⟨topology, ht, hchange⟩ := Option.map_eq_some_iff.mp hchange
    have hitems : topology.items = items := by
      unfold Schemaform.Form.hostArrayChange at hchange
      split at hchange
      · cases hchange
      · cases hchange; rfl
    subst hitems
    have hkept := forall₂_getElem? (h.items k array topology ha ht) j
    rw [hj] at hkept
    generalize hv : (arrayValues array.definition.binding transaction.candidate)[j]? = v at hkept
    cases hkept with
    | @some _ v hkept =>
      obtain ⟨i', item', u, hi', hid, hu, hs⟩ := hkept
      have hnd := hinv.identities_nodup array (List.mem_of_getElem? ha)
      obtain rfl := Engine.Form.identity_index hnd hi' hi hid
      refine Engine.Form.SameValue.trans_resolve hinv.formData_wf h.candidate_wf hwf ?_ heq
      rw [resolve_arrayItem hu, resolve_arrayItem hv]
      exact hs rel hrel

end Apply

end Schemaform
