import Schemaform.Engine.ArraySpec
import Schemaform.Form.System
import Schemaform.Lib.Outcome

/-!
# Form.UserSpec

What each user operation does: nothing, with an error, or one operation of the engine followed by
the facade's bookkeeping.

* `Refused`, `attempt_cases`: a call that ends early leaves the form as it was.
* `Edited`: the engine operation a permitted call runs.
* One `_cases` lemma for each operation, with the transition it reports.
-/

namespace Schemaform

def Refused {α ε : Type} (form form' : Form) (r : Except ε α) : Prop :=
  form' = form ∧ ∃ e, r = .error e

theorem attempt_cases {α β ε : Type} {form form' : Form} {check : Except ε α}
    {next : α → Form × Except ε β} {r : Except ε β} (h : attempt form check next = (form', r)) :
    Refused form form' r ∨ ∃ a, check = .ok a ∧ next a = (form', r) := by
  cases check with
  | error e => cases h; exact .inl ⟨rfl, e, rfl⟩
  | ok a => exact .inr ⟨a, rfl, h⟩

namespace Form

variable {form form' : Form} {target : InstanceIdentity} {binding : Pointer} {engine : Engine.Form}

theorem bindingForOperation_eq_ok {allowed : AllowedOperations → Bool} :
    form.bindingForOperation target allowed = .ok binding ↔
      ∃ node, form.node target = some node ∧ allowed node.allowedOperations = true ∧
        node.binding = some binding := by
  unfold bindingForOperation
  by_cases hid : target.form = form.id
  · rw [if_neg (not_not.mpr hid)]
    cases form.node target with
    | none => simp
    | some node =>
      cases hallowed : allowed node.allowedOperations with
      | false => simp [hallowed]
      | true => cases hb : node.binding <;> simp [hallowed, hb]
  · rw [if_pos hid]
    simp [node, hid]

/-- The permitted run of an engine operation at the binding of a node. -/
structure Edited {α : Type} (form : Form) (target : InstanceIdentity)
    (allowed : AllowedOperations → Bool) (edit : EngineEdit α) (binding : Pointer)
    (engine : Engine.Form) (a : α) : Prop where
  permitted : ∃ node, form.node target = some node ∧ allowed node.allowedOperations = true ∧
    node.binding = some binding
  edited : edit form.engine binding = (engine, .ok a)

theorem candidateEngine_eq_ok {α : Type} {edit : EngineEdit α} {a : α}
    (h : form.candidateEngine binding edit = .ok (engine, a)) :
    edit form.engine binding = (engine, .ok a) := by
  unfold candidateEngine at h
  split at h
  · cases h
  · rename_i candidate b he
    obtain ⟨_, _, heq⟩ := bind_eq_ok.mp h
    cases heq
    exact he

/-! ## Scalars -/

/-- The committed edit of one control. -/
def ScalarEdited (form : Form) (target : InstanceIdentity) (engine : Engine.Form) (form' : Form)
    (r : Except UserOperationError Transition) : Prop :=
  form' = { form with engine }.settle form.revisions ∧
  r = .ok (form'.userTransition target form.revisions form.visibleValidationFindingsByNode
    form.visibleExternalFindingTargets form'.revisions)

theorem applyScalarEdit_cases {edit : EngineEdit Unit} {r : Except UserOperationError Transition}
    (h : form.applyScalarEdit target binding edit = (form', r)) :
    Refused form form' r ∨ ∃ engine, edit form.engine binding = (engine, .ok ()) ∧
      form.ScalarEdited target engine form' r := by
  rcases attempt_cases h with hr | ⟨⟨engine, ⟨⟩⟩, hc, h⟩
  · exact .inl hr
  · cases h
    exact .inr ⟨engine, candidateEngine_eq_ok hc, rfl, rfl⟩

theorem checkInputText_eq_ok {text : String} (h : form.checkInputText target text = .ok binding) :
    form.bindingForOperation target (·.inputText) = .ok binding := by
  obtain ⟨b, hb, h⟩ := bind_eq_ok.mp h
  obtain ⟨_, _, h⟩ := bind_eq_ok.mp h
  obtain ⟨_, _, h⟩ := bind_eq_ok.mp h
  obtain ⟨_, _, h⟩ := bind_eq_ok.mp h
  obtain ⟨_, _, h⟩ := bind_eq_ok.mp h
  obtain ⟨candidate, _, h⟩ := bind_eq_ok.mp h
  have hbinding : b = binding := by
    cases candidate with
    | none => cases h; rfl
    | some candidate =>
      obtain ⟨_, _, h⟩ := bind_eq_ok.mp h
      cases h
      rfl
  rw [← hbinding]
  exact hb

theorem inputText_cases {text : String} {r : Except UserOperationError Transition}
    (h : form.inputText target text = (form', r)) :
    Refused form form' r ∨ ∃ binding engine, form.Edited target (·.inputText)
      (fun engine binding => engine.editTextWithIntegerDigitLimit form.numbers.parser binding text
        form.numbers.maximumDigits) binding engine () ∧
      form.ScalarEdited target engine form' r := by
  rcases attempt_cases h with hr | ⟨binding, hc, h⟩
  · exact .inl hr
  · have hb := bindingForOperation_eq_ok.mp (checkInputText_eq_ok hc)
    dsimp only at h
    split at h
    · rename_i engine e he
      cases h
      rw [Engine.Form.editText_refused he]
      exact .inl ⟨rfl, _, rfl⟩
    · rename_i engine he
      cases h
      exact .inr ⟨binding, engine, ⟨hb, he⟩, rfl, rfl⟩

theorem setValue_cases {value : Value} {r : Except UserOperationError Transition}
    (h : form.setValue target value = (form', r)) :
    Refused form form' r ∨ ∃ binding engine, form.Edited target (·.setValue)
      (fun engine binding => engine.setValue binding value) binding engine () ∧
      form.ScalarEdited target engine form' r := by
  rcases attempt_cases h with hr | ⟨binding, hb, h⟩
  · exact .inl hr
  rcases attempt_cases h with hr | ⟨_, _, h⟩
  · exact .inl hr
  rcases applyScalarEdit_cases h with hr | ⟨engine, he, hs⟩
  · exact .inl hr
  · exact .inr ⟨binding, engine, ⟨bindingForOperation_eq_ok.mp hb, he⟩, hs⟩

theorem setNull_cases {r : Except UserOperationError Transition}
    (h : form.setNull target = (form', r)) :
    Refused form form' r ∨ ∃ binding engine, form.Edited target (·.setNull)
      (fun engine binding => engine.setValue binding .null) binding engine () ∧
      form.ScalarEdited target engine form' r := by
  rcases attempt_cases h with hr | ⟨binding, hb, h⟩
  · exact .inl hr
  rcases applyScalarEdit_cases h with hr | ⟨engine, he, hs⟩
  · exact .inl hr
  · exact .inr ⟨binding, engine, ⟨bindingForOperation_eq_ok.mp hb, he⟩, hs⟩

theorem checkBlur_eq_ok (h : form.checkBlur target = .ok binding) :
    ∃ node, form.node target = some node ∧ node.isReadOnly = false ∧
      node.definition.kind = .control ∧ node.binding = some binding := by
  unfold checkBlur at h
  split at h
  · cases h
  · split at h
    · cases h
    · rename_i hro
      split at h
      · cases h
      · rename_i b hb
        cases h
        obtain ⟨node, hn, hbinding⟩ := Option.bind_eq_some_iff.mp hb
        obtain ⟨hn, hk⟩ := Option.filter_eq_some_iff.mp hn
        refine ⟨node, hn, ?_, by simpa using hk, hbinding⟩
        simpa [hn] using hro

theorem blur_cases {r : Except UserOperationError Transition}
    (h : form.blur target = (form', r)) :
    Refused form form' r ∨ ∃ node binding engine, form.node target = some node ∧
      node.isReadOnly = false ∧ node.definition.kind = .control ∧ node.binding = some binding ∧
      form.engine.blur binding = (engine, .ok ()) ∧ form' = { form with engine } ∧
      r = .ok (transition form.revisions form'.revisions
        (if form.revisions ≠ form'.revisions then [target] else [])) := by
  rcases attempt_cases h with hr | ⟨binding, hc, h⟩
  · exact .inl hr
  · obtain ⟨node, hn, hro, hk, hb⟩ := checkBlur_eq_ok hc
    dsimp only at h
    split at h
    · rename_i engine e he
      cases h
      rw [Engine.Form.blur_refused he]
      exact .inl ⟨rfl, _, rfl⟩
    · rename_i engine he
      cases h
      exact .inr ⟨node, binding, engine, hn, hro, hk, hb, he, rfl, rfl⟩

/-! ## Structures -/

/-- The committed edit of a structure. -/
def StructureEdited (form : Form) (binding : Pointer) (engine : Engine.Form) (form' : Form)
    (r : Except UserOperationError Transition) : Prop :=
  form' = { form with engine }.settle form.revisions ∧
  r = .ok (form'.topologyTransition form.revisions form'.revisions form.instanceIdentities
    (form'.structurallyChanged binding form.visibleValidationFindingsByNode ++
      form.visibleExternalFindingTargets))

theorem applyStructuralEdit_cases {edit : EngineEdit Unit}
    {r : Except UserOperationError Transition}
    (h : form.applyStructuralEdit binding edit = (form', r)) :
    Refused form form' r ∨ ∃ engine, edit form.engine binding = (engine, .ok ()) ∧
      form.StructureEdited binding engine form' r := by
  rcases attempt_cases h with hr | ⟨⟨engine, ⟨⟩⟩, hc, h⟩
  · exact .inl hr
  · cases h
    exact .inr ⟨engine, candidateEngine_eq_ok hc, rfl, rfl⟩

/-- A structure takes the structural edit, any other node the scalar one. -/
def StructureOrScalar (form : Form) (target : InstanceIdentity) (binding : Pointer)
    (engine : Engine.Form) (form' : Form) (r : Except UserOperationError Transition) : Prop :=
  if (form.semanticKind target).any SemanticKind.isStructure then
    form.StructureEdited binding engine form' r
  else form.ScalarEdited target engine form' r

theorem removeValue_cases {r : Except UserOperationError Transition}
    (h : form.removeValue target = (form', r)) :
    Refused form form' r ∨ ∃ binding engine, form.Edited target (·.removeValue)
      Engine.Form.removeValue binding engine () ∧
      form.StructureOrScalar target binding engine form' r := by
  rcases attempt_cases h with hr | ⟨binding, hb, h⟩
  · exact .inl hr
  unfold StructureOrScalar
  split at h
  · rename_i hk
    rcases applyStructuralEdit_cases h with hr | ⟨engine, he, hs⟩
    · exact .inl hr
    · exact .inr ⟨binding, engine, ⟨bindingForOperation_eq_ok.mp hb, he⟩, by rwa [if_pos hk]⟩
  · rename_i hk
    rcases applyScalarEdit_cases h with hr | ⟨engine, he, hs⟩
    · exact .inl hr
    · exact .inr ⟨binding, engine, ⟨bindingForOperation_eq_ok.mp hb, he⟩, by rwa [if_neg hk]⟩

/-- The engine operation behind a replacement. -/
def replaceEdit (form : Form) (target : InstanceIdentity) (value : Value) : EngineEdit Unit :=
  fun engine binding =>
    if (form.semanticKind target).any SemanticKind.isStructure then
      engine.replaceStructure binding value
    else engine.setValue binding value

theorem replaceValue_cases {value : Value} {r : Except UserOperationError Transition}
    (h : form.replaceValue target value = (form', r)) :
    Refused form form' r ∨ ∃ binding engine, form.Edited target (·.replaceValue)
      (form.replaceEdit target value) binding engine () ∧
      form.StructureOrScalar target binding engine form' r := by
  rcases attempt_cases h with hr | ⟨binding, hb, h⟩
  · exact .inl hr
  have hb := bindingForOperation_eq_ok.mp hb
  dsimp only at h
  unfold StructureOrScalar
  split at h
  · rename_i hk
    rcases attempt_cases h with hr | ⟨_, _, h⟩
    · exact .inl hr
    rcases applyStructuralEdit_cases h with hr | ⟨engine, he, hs⟩
    · exact .inl hr
    · refine .inr ⟨binding, engine, ⟨hb, ?_⟩, by rwa [if_pos hk]⟩
      simp only [replaceEdit, if_pos hk]
      exact he
  · rename_i hk
    rcases attempt_cases h with hr | ⟨_, _, h⟩
    · exact .inl hr
    rcases applyScalarEdit_cases h with hr | ⟨engine, he, hs⟩
    · exact .inl hr
    · refine .inr ⟨binding, engine, ⟨hb, ?_⟩, by rwa [if_neg hk]⟩
      simp only [replaceEdit, if_neg hk]
      exact he

theorem materialize_cases {r : Except UserOperationError Transition}
    (h : form.materialize target = (form', r)) :
    Refused form form' r ∨ ∃ seed binding engine, form.creationSeed target = .ok seed ∧
      form.Edited target (·.materialize)
        (fun engine binding => engine.materializeStructure binding seed) binding engine () ∧
      form.StructureEdited binding engine form' r := by
  rcases attempt_cases h with hr | ⟨binding, hb, h⟩
  · exact .inl hr
  rcases attempt_cases h with hr | ⟨seed, hseed, h⟩
  · exact .inl hr
  rcases applyStructuralEdit_cases h with hr | ⟨engine, he, hs⟩
  · exact .inl hr
  · exact .inr ⟨seed, binding, engine, hseed, ⟨bindingForOperation_eq_ok.mp hb, he⟩, hs⟩

/-! ## Array items -/

theorem templateOf_eq_ok {template : Nat} (h : form.templateOf target = .ok template) :
    form.definition.inner.arrayTemplate target.node = some template := by
  unfold templateOf at h
  split at h
  · cases h
  · rename_i t ht
    cases h
    exact ht

theorem checkItem_eq_ok {item : ItemIdentity} (h : form.checkItem item = .ok ()) :
    item.form = form.id := by
  unfold checkItem at h
  split at h
  · cases h
  · rename_i hid
    exact not_not.mp hid

/-- The committed edit of an array's items. -/
def ItemsEdited (form : Form) (engine : Engine.Form) (directlyChanged removed : List InstanceIdentity)
    (form' : Form) (r : Except UserOperationError Transition) : Prop :=
  form' = { form with engine }.revalidate.clearExternalFindings ∧
  r = .ok (form'.arrayTransition form.revisions form.visibleValidationFindingsByNode
    directlyChanged removed)

theorem appendItem_cases {array : InstanceIdentity} {r : Except UserOperationError Transition}
    (h : form.appendItem array = (form', r)) :
    Refused form form' r ∨ ∃ binding template engine item,
      form.definition.inner.arrayTemplate array.node = some template ∧
      form.Edited array (·.appendItem) Engine.Form.appendArrayItem binding engine item ∧
      form.ItemsEdited engine (array :: form.itemSubtreeIdentities template (form.item item) ++
        form.visibleExternalFindingTargets) [] form' r := by
  rcases attempt_cases h with hr | ⟨binding, hb, h⟩
  · exact .inl hr
  rcases attempt_cases h with hr | ⟨template, ht, h⟩
  · exact .inl hr
  dsimp only at h
  rcases attempt_cases h with hr | ⟨⟨engine, item⟩, hc, h⟩
  · exact .inl hr
  cases h
  exact .inr ⟨binding, template, engine, item, templateOf_eq_ok ht,
    ⟨bindingForOperation_eq_ok.mp hb, candidateEngine_eq_ok hc⟩, rfl, rfl⟩

theorem insertItemBefore_cases {array : InstanceIdentity} {before : ItemIdentity}
    {r : Except UserOperationError Transition}
    (h : form.insertItemBefore array before = (form', r)) :
    Refused form form' r ∨ ∃ binding template engine inserted, before.form = form.id ∧
      form.definition.inner.arrayTemplate array.node = some template ∧
      form.Edited array (·.appendItem)
        (fun engine binding => engine.insertArrayItemBefore binding before.localId) binding engine
        inserted ∧
      form.ItemsEdited engine
        (array :: form.itemSubtreeIdentities template (form.item inserted.identity) ++
          form.itemSubtrees template inserted.shifted ++ form.visibleExternalFindingTargets) []
        form' r := by
  rcases attempt_cases h with hr | ⟨⟨⟩, hitem, h⟩
  · exact .inl hr
  rcases attempt_cases h with hr | ⟨binding, hb, h⟩
  · exact .inl hr
  rcases attempt_cases h with hr | ⟨template, ht, h⟩
  · exact .inl hr
  dsimp only at h
  rcases attempt_cases h with hr | ⟨⟨engine, inserted⟩, hc, h⟩
  · exact .inl hr
  cases h
  exact .inr ⟨binding, template, engine, inserted, checkItem_eq_ok hitem, templateOf_eq_ok ht,
    ⟨bindingForOperation_eq_ok.mp hb, candidateEngine_eq_ok hc⟩, rfl, rfl⟩

theorem removeItem_cases {array : InstanceIdentity} {item : ItemIdentity}
    {r : Except UserOperationError Transition}
    (h : form.removeItem array item = (form', r)) :
    Refused form form' r ∨ ∃ binding template engine removed, item.form = form.id ∧
      form.definition.inner.arrayTemplate array.node = some template ∧
      form.Edited array (·.removeItem)
        (fun engine binding => engine.removeArrayItem binding item.localId) binding engine removed ∧
      form.ItemsEdited engine (array :: form.itemSubtrees template removed.shifted ++
        form.visibleExternalFindingTargets.filter fun identity =>
          !(form.itemSubtreeIdentities template item).contains identity)
        (form.itemSubtreeIdentities template item) form' r := by
  rcases attempt_cases h with hr | ⟨⟨⟩, hitem, h⟩
  · exact .inl hr
  rcases attempt_cases h with hr | ⟨binding, hb, h⟩
  · exact .inl hr
  rcases attempt_cases h with hr | ⟨template, ht, h⟩
  · exact .inl hr
  dsimp only at h
  split at h
  · cases h
    exact .inl ⟨rfl, _, rfl⟩
  · split at h
    · rename_i engine e he
      cases h
      rw [Engine.Form.removeArrayItem_refused he]
      exact .inl ⟨rfl, _, rfl⟩
    · rename_i engine removed he
      cases h
      exact .inr ⟨binding, template, engine, removed, checkItem_eq_ok hitem, templateOf_eq_ok ht,
        ⟨bindingForOperation_eq_ok.mp hb, he⟩, rfl, rfl⟩

theorem moveItem_cases {direction : Engine.ArrayMove} {array : InstanceIdentity}
    {item : ItemIdentity} {r : Except UserOperationError Transition}
    (h : form.moveItem direction array item = (form', r)) :
    Refused form form' r ∨ ∃ binding template engine moved, item.form = form.id ∧
      form.definition.inner.arrayTemplate array.node = some template ∧
      form.Edited array (·.moveItem) (fun engine binding =>
        Engine.Form.moveArrayItem direction engine binding item.localId) binding engine moved ∧
      form' = (if moved.dataChanged then { form with engine }.revalidate.clearExternalFindings
        else { form with engine }.moveExternalFindings binding moved.source moved.destination) ∧
      r = .ok (form'.arrayTransition form.revisions form.visibleValidationFindingsByNode
        (array :: form.itemSubtreeIdentities template item ++
          form.itemSubtreeIdentities template (form.item moved.displaced) ++
          if moved.dataChanged then form.visibleExternalFindingTargets else []) []) := by
  rcases attempt_cases h with hr | ⟨⟨⟩, hitem, h⟩
  · exact .inl hr
  rcases attempt_cases h with hr | ⟨binding, hb, h⟩
  · exact .inl hr
  rcases attempt_cases h with hr | ⟨template, ht, h⟩
  · exact .inl hr
  dsimp only at h
  split at h
  · rename_i engine e he
    cases h
    rw [Engine.Form.moveArrayItem_refused he]
    exact .inl ⟨rfl, _, rfl⟩
  · rename_i engine moved he
    cases h
    refine .inr ⟨binding, template, engine, moved, checkItem_eq_ok hitem, templateOf_eq_ok ht,
      ⟨bindingForOperation_eq_ok.mp hb, he⟩, rfl, ?_⟩
    cases moved.dataChanged <;> rfl

theorem toggleChoice_cases {array : InstanceIdentity} {value : Value}
    {r : Except UserOperationError Transition} (h : form.toggleChoice array value = (form', r)) :
    Refused form form' r ∨ ∃ binding template engine toggled,
      form.definition.inner.arrayTemplate array.node = some template ∧
      form.Edited array (·.toggleChoice)
        (fun engine binding => engine.toggleArrayChoice binding value) binding engine toggled ∧
      form.ItemsEdited engine (array :: form.itemSubtrees template (toggledItems toggled).1 ++
        form.itemSubtrees template (toggledItems toggled).2.2 ++
        form.visibleExternalFindingTargets.filter fun identity =>
          !(form.itemSubtrees template (toggledItems toggled).2.1).contains identity)
        (form.itemSubtrees template (toggledItems toggled).2.1) form' r := by
  rcases attempt_cases h with hr | ⟨binding, hb, h⟩
  · exact .inl hr
  rcases attempt_cases h with hr | ⟨template, ht, h⟩
  · exact .inl hr
  rcases attempt_cases h with hr | ⟨_, _, h⟩
  · exact .inl hr
  dsimp only at h
  rcases attempt_cases h with hr | ⟨⟨engine, toggled⟩, hc, h⟩
  · exact .inl hr
  cases h
  exact .inr ⟨binding, template, engine, toggled, templateOf_eq_ok ht,
    ⟨bindingForOperation_eq_ok.mp hb, candidateEngine_eq_ok hc⟩, rfl, rfl⟩

end Form

end Schemaform
