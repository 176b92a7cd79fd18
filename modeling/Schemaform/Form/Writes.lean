import Schemaform.Form.Reachable

/-!
# Form.Writes

Host transactions that write values only, and the items of the arrays they write.

* `HostOperation.edit`: what a write does to the data, whatever is recorded beside it.
* `Replaced`: a write at or above an array left it another value, and no later such write changed
  it again.
* `written_topology`: the topology entry of an array is marked exactly then.
* `array_kept_iff`: an array with its old value at the commit keeps its items unless it was
  replaced.
-/

namespace Schemaform

namespace HostOperation

/-- `set`, `remove` and `replace_all`. -/
def isWrite : HostOperation → Bool
  | .set _ _ | .remove _ | .replaceAll _ => true
  | _ => false

def pointer : HostOperation → Pointer
  | .set pointer _ | .remove pointer => pointer
  | _ => []

/-- The data after a write, `none` when it is invalid. -/
def edit : HostOperation → Value → Option Value
  | .set pointer value => setBoundValue pointer value
  | .remove pointer => takeBoundValue pointer
  | .replaceAll value => fun _ => some value
  | _ => some

/-- The write starts at or above the binding and changes the value there. -/
def Changes (operation : HostOperation) (binding : Pointer) (before after : Value) : Prop :=
  binding.startsWith operation.pointer = true ∧
    ¬ SameValue (binding.resolve before) (binding.resolve after)

end HostOperation

/-- No write at or above the binding changes the value there. -/
def Untouched (binding : Pointer) : Value → List HostOperation → Prop
  | _, [] => True
  | before, operation :: operations => ∀ after, operation.edit before = some after →
    ¬ operation.Changes binding before after ∧ Untouched binding after operations

/-- Some write at or above the binding leaves a value there that is not the original one, and no
later one changes it again. -/
def Replaced (binding : Pointer) (original : Option Value) : Value → List HostOperation → Prop
  | _, [] => False
  | before, operation :: operations => ∃ after, operation.edit before = some after ∧
    (operation.Changes binding before after ∧ ¬ SameValue original (binding.resolve after) ∧
      Untouched binding after operations ∨ Replaced binding original after operations)

namespace HostTransaction

variable {transaction : HostTransaction}

/-- Nothing has gone wrong so far. -/
def Sound (transaction : HostTransaction) : Prop :=
  transaction.valid = true ∧ transaction.commitError = none

theorem authoritativeWrite_sound {write : Pointer} {edit : Value → Option Value}
    (h : (transaction.authoritativeWrite write edit).valid = true) :
    ∃ after, edit transaction.candidate = some after ∧
      (transaction.authoritativeWrite write edit).candidate = after ∧
      (transaction.authoritativeWrite write edit).arrayTopologies =
        transaction.updateAuthoritativeArrays write after := by
  unfold authoritativeWrite at h ⊢
  cases hedit : edit transaction.candidate with
  | none =>
    rw [hedit] at h
    cases h
  | some after => exact ⟨after, rfl, rfl, rfl⟩

/-- A write that goes through has edited the candidate and looked at the arrays below it. -/
theorem apply_sound {operation : HostOperation} (hwrite : operation.isWrite = true)
    (h : (transaction.apply operation).Sound) : transaction.Sound ∧
    ∃ after, operation.edit transaction.candidate = some after ∧
      (transaction.apply operation).candidate = after ∧
      (transaction.apply operation).arrayTopologies =
        transaction.updateAuthoritativeArrays operation.pointer after := by
  unfold apply beginOperation at h ⊢
  by_cases hstuck : (!transaction.valid || transaction.commitError.isSome) = true
  · obtain ⟨hvalid, herror⟩ := h
    simp only [hstuck, if_true, Bool.not_false] at hvalid herror
    simp [hvalid, herror] at hstuck
  · have hsound : transaction.Sound := by simpa [Sound] using hstuck
    refine ⟨hsound, ?_⟩
    simp only [if_neg hstuck] at h ⊢
    by_cases hcount : transaction.operationCount + 1 > transaction.maximumOperations
    · simp only [if_pos hcount, Bool.not_false, if_true] at h
      cases h.2
    · simp only [if_neg hcount, Bool.not_true, Bool.false_eq_true, if_false] at h ⊢
      cases operation with
      | set pointer value => exact authoritativeWrite_sound h.1
      | remove pointer => exact authoritativeWrite_sound h.1
      | replaceAll value => exact authoritativeWrite_sound h.1
      | _ => cases hwrite

theorem foldl_sound {operations : List HostOperation}
    (hwrites : ∀ o ∈ operations, o.isWrite = true)
    (h : (operations.foldl apply transaction).Sound) : transaction.Sound := by
  induction operations generalizing transaction with
  | nil => exact h
  | cons o operations ih =>
    have hwrite := hwrites o List.mem_cons_self
    have hrest := ih (fun o ho => hwrites o (List.mem_cons_of_mem _ ho)) h
    exact (apply_sound hwrite hrest).1

end HostTransaction

/-- The entry of one array at the end of a queue of writes. -/
structure Settled (before after : HostArrayTopology) (data : Value)
    (operations : List HostOperation) : Prop where
  binding : after.binding = before.binding
  originalItems : after.originalItems = before.originalItems
  marked : after.authoritativeReplacement = true ↔
    Replaced before.binding before.original data operations ∨
      before.authoritativeReplacement = true ∧ Untouched before.binding data operations
  items : (before.authoritativeReplacement = false → before.items = before.originalItems) →
    after.authoritativeReplacement = false → after.items = after.originalItems

/-- One write, at the entry of one array. -/
theorem Settled.cons {topology after : HostArrayTopology} {o : HostOperation}
    {operations : List HostOperation} {v w : Value} (hedit : o.edit v = some w)
    (h : Settled (if topology.binding.startsWith o.pointer then
      topology.update w (topology.binding.resolve v) else topology) after w operations) :
    Settled topology after v (o :: operations) := by
  have hcons (P : Value → Prop) : (∀ after, o.edit v = some after → P after) ↔ P w := by
    rw [hedit]
    simp
  have hcons' (P : Value → Prop) : (∃ after, o.edit v = some after ∧ P after) ↔ P w := by
    rw [hedit]
    simp
  by_cases hchanges : o.Changes topology.binding v w
  · have hsame : optionalJsonValuesEqual (topology.binding.resolve v)
        (topology.binding.resolve w) = false :=
      Bool.eq_false_iff.mpr fun h => hchanges.2 (optionalJsonValuesEqual_iff.mp h)
    rw [if_pos hchanges.1] at h
    obtain ⟨hb, ho, hi⟩ := update_fixed topology w (topology.binding.resolve v)
    obtain ⟨hbinding, hitems, hmarked, hkept⟩ := h
    rw [hb] at hbinding
    rw [hi] at hitems
    rw [hb, ho] at hmarked
    have hflag : (topology.update w (topology.binding.resolve v)).authoritativeReplacement = true ↔
        ¬ SameValue topology.original (topology.binding.resolve w) := by
      rw [← optionalJsonValuesEqual_iff]
      simp [HostArrayTopology.update, hsame]
    refine ⟨hbinding, hitems, ?_, fun _ => hkept fun hfalse => ?_⟩
    · rw [hmarked, hflag, Replaced, Untouched, hcons, hcons']
      simp only [hchanges, true_and, not_true_eq_false, false_and, and_false, or_false]
      exact or_comm
    · rw [hi]
      have hrestored : optionalJsonValuesEqual topology.original (topology.binding.resolve w) =
          true := by
        simpa [HostArrayTopology.update, hsame] using hfalse
      simp [HostArrayTopology.update, hsame, hrestored]
  · have hentry : (if topology.binding.startsWith o.pointer then
        topology.update w (topology.binding.resolve v) else topology) = topology := by
      split
      · rename_i habove
        have hsame : optionalJsonValuesEqual (topology.binding.resolve v)
            (topology.binding.resolve w) = true := by
          rw [optionalJsonValuesEqual_iff]
          exact not_not.mp fun hne => hchanges ⟨habove, hne⟩
        simp [HostArrayTopology.update, hsame]
      · rfl
    rw [hentry] at h
    obtain ⟨hbinding, hitems, hmarked, hkept⟩ := h
    refine ⟨hbinding, hitems, ?_, hkept⟩
    rw [hmarked, Replaced, Untouched, hcons, hcons']
    simp only [hchanges, false_and, false_or, not_false_eq_true, true_and]

/-- Every entry at the end of a queue of writes. -/
theorem written_topology {transaction : HostTransaction} {operations : List HostOperation}
    (hwrites : ∀ o ∈ operations, o.isWrite = true)
    (h : (operations.foldl HostTransaction.apply transaction).Sound) {k : Nat}
    {topology : HostArrayTopology} (ht : transaction.arrayTopologies[k]? = some topology) :
    ∃ after, (operations.foldl HostTransaction.apply transaction).arrayTopologies[k]? =
        some after ∧ Settled topology after transaction.candidate operations := by
  induction operations generalizing transaction topology with
  | nil =>
    refine ⟨topology, ht, rfl, rfl, ?_, fun h => h⟩
    simp [Replaced, Untouched]
  | cons o operations ih =>
    have hrest : ∀ o ∈ operations, o.isWrite = true :=
      fun o ho => hwrites o (List.mem_cons_of_mem _ ho)
    obtain ⟨_, w, hedit, hcandidate, htopologies⟩ :=
      HostTransaction.apply_sound (hwrites o List.mem_cons_self) (HostTransaction.foldl_sound hrest h)
    have hentry : (transaction.apply o).arrayTopologies[k]? =
        some (if topology.binding.startsWith o.pointer then
          topology.update w (topology.binding.resolve transaction.candidate) else topology) := by
      rw [htopologies, HostTransaction.updateAuthoritativeArrays, List.getElem?_map, ht]
      rfl
    obtain ⟨after, hafter, hsettled⟩ := ih hrest h hentry
    rw [hcandidate] at hsettled
    exact ⟨after, hafter, hsettled.cons hedit⟩

/-! ## The commit -/

namespace Form

variable {form form' : Form}

/-- What a committed transaction leaves of an array. -/
structure ArrayCommitted (form form' : Form) (transaction : HostTransaction)
    (array array' : Engine.ArrayState) (topology : HostArrayTopology) : Prop where
  before : array ∈ form.engine.arrays
  after : array' ∈ form'.engine.arrays
  binding : array'.definition.binding = array.definition.binding
  identities :
    if topology.authoritativeReplacement then
      ∀ i ∈ array'.identities, form.engine.nextItemIdentity ≤ i
    else List.Forall₂ (Engine.Form.Named form.engine.nextItemIdentity) topology.items
      array'.identities

theorem tryTransact_committed {ε : Type} {operations : List HostOperation}
    {closure : Except ε Unit} {t : Transition} (hinv : form.Inv) (hwf : ∀ o ∈ operations, o.WF)
    (h : form.tryTransact operations closure = (form', .ok t)) :
    (form.queued operations).Sound ∧ ∀ (k : Nat) (array : Engine.ArrayState),
      form.engine.arrays[k]? = some array → ∃ array' topology,
        (form.queued operations).arrayTopologies[k]? = some topology ∧
        form.ArrayCommitted form' (form.queued operations) array array' topology := by
  rcases tryTransact_cases hinv hwf h with ⟨_, _, hr⟩ | ⟨candidate, engine, _, hc, he, rfl, _⟩
  · cases hr
  obtain ⟨hnone, hvalid, _, _, _⟩ := hostCandidate_eq_ok hc
  refine ⟨⟨hvalid, hnone⟩, fun k array ha => ?_⟩
  have hfound := (queued_tracked hinv hwf).found
  rcases Engine.Form.applyHostTransaction_cases hinv.identities_nodup hfound he with
    ⟨_, _, hr⟩ | ⟨_, _, hlen, hvalid, changed, hengine, _⟩
  · cases hr
  have harrays : (form.hostCommitted (form.queued operations) candidate engine).engine.arrays =
      (form.engine.committed candidate (form.queued operations).writes
        ((form.queued operations).arrayTopologies.map hostArrayChange)
        (form.queued operations).itemWrites).arrays := by
    rw [hostCommitted_engine, hengine, Engine.Form.advance_arrays]
  have hlt : k < form.engine.arrays.length := (List.getElem?_eq_some_iff.mp ha).1
  have hlength : (form.engine.committed candidate (form.queued operations).writes
      ((form.queued operations).arrayTopologies.map hostArrayChange)
      (form.queued operations).itemWrites).arrays.length = form.engine.arrays.length := by
    have hdefinitions := (Engine.Form.applyChanges_definitions
        (form.engine.committedData candidate)
        (form.engine.clearItems (form.queued operations).itemWrites).arrays
        ((form.queued operations).arrayTopologies.map hostArrayChange)
        form.engine.nextItemIdentity).trans
      (Engine.Form.clearItems_definitions form.engine (form.queued operations).itemWrites)
    have hmapped := congrArg List.length hdefinitions
    rwa [List.length_map, List.length_map] at hmapped
  obtain ⟨array', ha'⟩ : ∃ array', (form.engine.committed candidate (form.queued operations).writes
      ((form.queued operations).arrayTopologies.map hostArrayChange)
      (form.queued operations).itemWrites).arrays[k]? = some array' :=
    ⟨_, List.getElem?_eq_getElem (hlength ▸ hlt)⟩
  obtain ⟨a, change, hak, hchange, hdefinition, hids⟩ :=
    Engine.Form.committed_identities hinv hlen hvalid ha'
  obtain rfl := Option.some.inj (ha.symm.trans hak)
  rw [List.getElem?_map] at hchange
  obtain ⟨topology, ht, rfl⟩ := Option.map_eq_some_iff.mp hchange
  refine ⟨array', topology, ht, List.mem_of_getElem? ha, ?_, by rw [hdefinition], ?_⟩
  · rw [harrays]
    exact List.mem_of_getElem? ha'
  · unfold hostArrayChange at hids
    cases hmarked : topology.authoritativeReplacement with
    | true => simpa [hmarked] using hids
    | false => simpa [hmarked] using hids

theorem identities_lt (hinv : form.Inv) {array : Engine.ArrayState}
    (ha : array ∈ form.engine.arrays) : ∀ i ∈ array.identities, i < form.engine.nextItemIdentity :=
  fun i hi => hinv.pool.current_lt i (List.mem_flatten.mpr ⟨_, List.mem_map_of_mem ha, hi⟩)

theorem named_existing {n : Nat} {before after : List Nat}
    (h : List.Forall₂ (Engine.Form.Named n) (before.map .existing) after) : after = before := by
  rw [List.forall₂_map_left_iff] at h
  induction h with
  | nil => rfl
  | cons hi _ ih => rw [ih, show _ = _ from hi]

/-- As many items before and after when the value is the same. -/
theorem length_identities (hinv : form.Inv) (hinv' : form'.Inv) {array array' : Engine.ArrayState}
    (ha : array ∈ form.engine.arrays) (ha' : array' ∈ form'.engine.arrays)
    (hbinding : array'.definition.binding = array.definition.binding)
    (hsame : SameValue (array.definition.binding.resolve form.formData)
      (array.definition.binding.resolve form'.formData)) :
    array'.identities.length = array.identities.length := by
  have hlen := (Engine.Form.coherent_iff.mp hinv.coherent).2 array ha
  have hlen' := (Engine.Form.coherent_iff.mp hinv'.coherent).2 array' ha'
  rw [hbinding] at hlen'
  rw [Engine.ArrayState.identities, Engine.ArrayState.identities, List.length_map, List.length_map]
  exact hlen'.trans ((arrayValues_congr hsame).length_eq.symm.trans hlen.symm)

/-- An array that has its old value when a queue of writes is committed keeps its items, unless
it has some and was replaced on the way. -/
theorem array_kept_iff (hreach : formSystem.Reachable form) {ε : Type}
    {operations : List HostOperation} {closure : Except ε Unit} {t : Transition}
    (hwf : ∀ o ∈ operations, o.WF) (hwrites : ∀ o ∈ operations, o.isWrite = true)
    (h : form.tryTransact operations closure = (form', .ok t)) {array : Engine.ArrayDefinition}
    (harray : array ∈ form.definition.inner.engine.arrays)
    (hsame : SameValue (array.binding.resolve form.formData)
      (array.binding.resolve form'.formData)) :
    form'.engine.arrayItemIdentities array.binding =
        form.engine.arrayItemIdentities array.binding ↔
      form.engine.arrayItemIdentities array.binding = some [] ∨
        ¬ Replaced array.binding (array.binding.resolve form.formData) form.formData
          operations := by
  have hinv := reachable_inv hreach
  have heffect := tryTransact_effect hinv hwf h
  have hinv' := heffect.inv
  obtain ⟨hsound, hcommitted⟩ := tryTransact_committed hinv hwf h
  rw [← hinv.shaped.arrays] at harray
  obtain ⟨state, hstate, rfl⟩ := List.mem_map.mp harray
  obtain ⟨k, hk⟩ := List.mem_iff_getElem?.mp hstate
  obtain ⟨state', topology, ht, hc⟩ := hcommitted k state hk
  have hids : form.engine.arrayItemIdentities state.definition.binding = some state.identities := by
    rw [Engine.Form.arrayItemIdentities, hinv.shaped.array_eq form.engine_wf hstate]
    rfl
  have hids' : form'.engine.arrayItemIdentities state.definition.binding =
      some state'.identities := by
    rw [← hc.binding, Engine.Form.arrayItemIdentities,
      hinv'.shaped.array_eq form'.engine_wf hc.after]
    rfl
  have hlength := length_identities hinv hinv' hstate hc.after hc.binding hsame
  -- the entry of the array, before the queue and after it
  have hstart : form.hostTransaction.arrayTopologies[k]? =
      some (originalTopology form.formData state) := by
    change form.hostArrayTopologies[k]? = _
    rw [hostArrayTopologies_eq form.engine_wf hinv.shaped, List.getElem?_map, hk]
    rfl
  obtain ⟨after, hafter, hsettled⟩ := written_topology hwrites hsound hstart
  obtain rfl := Option.some.inj (ht.symm.trans hafter)
  have hmarked : topology.authoritativeReplacement = true ↔ Replaced state.definition.binding
      (state.definition.binding.resolve form.formData) form.formData operations := by
    refine hsettled.marked.trans ⟨fun hor => ?_, .inl⟩
    rcases hor with h | ⟨hfalse, _⟩
    · exact h
    · cases hfalse
  rw [hids, hids', Option.some.injEq, Option.some.injEq, ← hmarked]
  cases hflag : topology.authoritativeReplacement with
  | true =>
    have hfresh : ∀ i ∈ state'.identities, form.engine.nextItemIdentity ≤ i := by
      simpa only [hflag, if_true] using hc.identities
    simp only [not_true_eq_false, or_false]
    constructor
    · intro heq
      refine List.eq_nil_iff_forall_not_mem.mpr fun i hi => ?_
      have hlt := identities_lt hinv hstate i hi
      have hle := hfresh i (heq ▸ hi)
      omega
    · intro hnil
      rw [hnil, List.length_nil] at hlength
      rw [hnil, List.eq_nil_of_length_eq_zero hlength]
  | false =>
    have hitems := hsettled.items (fun _ => rfl) hflag
    rw [hsettled.originalItems] at hitems
    have hnamed := hc.identities
    simp only [hflag, Bool.false_eq_true, if_false, hitems] at hnamed
    simp only [Bool.false_eq_true, not_false_eq_true, or_true, iff_true]
    exact named_existing hnamed

end Form

/-! ## An array restored below its replacement -/

namespace Sample

/-- The form built on a list of one string. -/
def single : Form :=
  { empty with engine := { empty.engine with
      arrays := [⟨array, [⟨1, [⟨item, none, none, false⟩]⟩], false⟩]
      nextItemIdentity := 2
      baselineArrayIdentities := [[1]]
      baseline := formData [.string "x"]
      formData := formData [.string "x"] } }

theorem single_reachable : formSystem.Reachable single :=
  .init ⟨{ definition := strings, formData := formData [.string "x"] }, 0, by decide, rfl⟩

/-- Another list, and then its item set back. -/
def restoring : List HostOperation :=
  [.set ["a"] (.array [.string "y"]), .set ["a", "0"] (.string "x")]

def rewriting : List HostOperation :=
  [.set ["a"] (.array [.string "y"]), .set ["a"] (.array [.string "x"])]

end Sample

namespace Form

open Sample

theorem array_kept_iff_rewriting :
    (single.tryTransact rewriting (.ok () : Except Unit Unit)).2.isOk = true ∧
    ((single.tryTransact rewriting (.ok () : Except Unit Unit)).1.engine.arrayItemIdentities
        ["a"] = single.engine.arrayItemIdentities ["a"] ↔
      single.engine.arrayItemIdentities ["a"] = some [] ∨
        ¬ Replaced ["a"] (some (.array [.string "x"])) single.formData rewriting) := by
  obtain ⟨t, ht⟩ : ∃ t, (single.tryTransact rewriting (.ok () : Except Unit Unit)).2 = .ok t :=
    ⟨_, rfl⟩
  have harray : array ∈ single.definition.inner.engine.arrays := by decide
  exact ⟨rfl, array_kept_iff single_reachable (by decide) (by decide) (Prod.ext rfl ht) harray
    (.some rfl)⟩

/-- The list is what it was, its item is not. -/
theorem restored_array_renewed : formSystem.Reachable single ∧
    (∀ o ∈ restoring, o.WF) ∧ (∀ o ∈ restoring, o.isWrite = true) ∧ ∃ form' t,
      single.tryTransact restoring (.ok () : Except Unit Unit) = (form', .ok t) ∧
      form'.formData = single.formData ∧
      single.engine.arrayItemIdentities ["a"] = some [1] ∧
      form'.engine.arrayItemIdentities ["a"] = some [2] :=
  ⟨single_reachable, by decide, by decide, _, _, rfl, rfl, rfl, rfl⟩

end Form

end Schemaform
