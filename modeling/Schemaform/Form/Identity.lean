import Schemaform.Form.Reachable

/-!
# Form.Identity

Array items and the values they stand for, over whole runs.

* `ItemsInStep`: an item for every value, in the current data and in the baseline, all with
  identities handed out before and no current identity twice.
* `items_in_step`: so in every reachable form, and an identity that is gone stays gone.
-/

namespace Schemaform

namespace Form

def currentIdentities (form : Form) : List Nat := (form.engine.arrays.map (·.identities)).flatten

def baselineIdentities (form : Form) : List Nat := form.engine.baselineArrayIdentities.flatten

structure ItemsInStep (form : Form) : Prop where
  /-- An item state for each value of the array, none when there is no array. -/
  items : ∀ (i : Nat) (array : Engine.ArrayDefinition),
    form.definition.inner.engine.arrays[i]? = some array → ∃ state,
      form.engine.arrays[i]? = some state ∧ state.definition = array ∧
      state.items.length = (Engine.arrayValues array.binding form.formData).length
  baseline : ∀ (i : Nat) (array : Engine.ArrayDefinition),
    form.definition.inner.engine.arrays[i]? = some array → ∃ identities,
      form.engine.baselineArrayIdentities[i]? = some identities ∧
      identities.length = (Engine.arrayValues array.binding form.engine.baseline).length
  below_next : ∀ identity ∈ form.currentIdentities ++ form.baselineIdentities,
    identity < form.engine.nextItemIdentity
  distinct : form.currentIdentities.Nodup

variable {form : Form}

theorem Inv.itemsInStep (hinv : form.Inv) : form.ItemsInStep where
  items := by
    intro i array hi
    rw [← hinv.shaped.arrays, List.getElem?_map, Option.map_eq_some_iff] at hi
    obtain ⟨state, hstate, rfl⟩ := hi
    exact ⟨state, hstate, rfl,
      (Engine.Form.coherent_iff.mp hinv.coherent).2 state (List.mem_of_getElem? hstate)⟩
  baseline := by
    intro i array hi
    obtain ⟨hlt, rfl⟩ := List.getElem?_eq_some_iff.mp hi
    have hlt' := hinv.baselineItems.length_eq ▸ hlt
    exact ⟨_, List.getElem?_eq_getElem hlt', hinv.baselineItems.get hlt hlt'⟩
  below_next := by
    intro identity hmem
    rcases List.mem_append.mp hmem with hmem | hmem
    · exact hinv.pool.current_lt identity hmem
    · exact hinv.pool.saved_lt identity hmem
  distinct := hinv.pool.current_nodup

/-- Handed out, and neither current nor in the baseline. -/
def Retired (form : Form) (identity : Nat) : Prop :=
  identity < form.engine.nextItemIdentity ∧ identity ∉ form.currentIdentities ∧
  identity ∉ form.baselineIdentities

theorem step_retired (h : formSystem.Reachable form) (operation : WellFormedOperation)
    {identity : Nat} (hi : form.Retired identity) :
    (formSystem.step form operation).Retired identity :=
  (reachable_effect h operation).engine.pool.retired hi

theorem run_retired (h : formSystem.Reachable form) (operations : List WellFormedOperation)
    {identity : Nat} (hi : form.Retired identity) :
    (formSystem.run form operations).Retired identity :=
  TransitionSystem.run_stable (fun _ operation hs => step_retired hs operation) h hi operations

/-- Items follow the data in every reachable form, and an identity that was handed out and has left
both the current items and the baseline is never an item again. -/
theorem items_in_step (h : formSystem.Reachable form) :
    form.ItemsInStep ∧ ∀ (operations : List WellFormedOperation) (identity : Nat),
      identity < form.engine.nextItemIdentity → identity ∉ form.currentIdentities →
      identity ∉ form.baselineIdentities →
      identity ∉ (formSystem.run form operations).currentIdentities :=
  ⟨(reachable_inv h).itemsInStep, fun operations _ hlt hcurrent hbaseline =>
    (run_retired h operations ⟨hlt, hcurrent, hbaseline⟩).2.1⟩

/-- The third item that came and went never comes back. -/
theorem items_in_step_edited : Sample.edited.ItemsInStep ∧
    ∀ operations : List WellFormedOperation,
      3 ∉ (formSystem.run Sample.edited operations).currentIdentities :=
  ⟨(items_in_step Sample.edited_reachable).1, fun operations =>
    (items_in_step Sample.edited_reachable).2 operations 3 (by decide) (by decide) (by decide)⟩

/-- The next identity is in neither list, and the next item takes it. -/
theorem next_identity_appears :
    formSystem.Reachable Sample.empty ∧ 1 ∉ Sample.empty.currentIdentities ∧
    1 ∉ Sample.empty.baselineIdentities ∧
    1 ∈ (formSystem.run Sample.empty
      [⟨.appendItem (Sample.empty.identity 1), trivial⟩]).currentIdentities :=
  ⟨Sample.empty_reachable, by decide, by decide, by decide⟩

end Form

end Schemaform
