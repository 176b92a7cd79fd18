import Mathlib.Data.List.Dedup
import Schemaform.Ui.ExtensionValue

/-!
# Ui.ExtensionsSpec

What the validation of extensions accepts.

* `Accepted`: extensions validated one after another, composed by `Accepted.comp`.
* `Element.uses`: the extensions of an element and of everything inside it.
* `validateElementExtensions_iff`, by the kinds of elements.
* `ExtensionsValid`, `validate_extensions_exact`.
-/

namespace Schemaform.Ui.V1

/-! ## States -/

namespace ExtensionValidationState

def use (state : ExtensionValidationState) (key : String) : ExtensionValidationState :=
  ⟨if key ∈ state.namespaces then state.namespaces else key :: state.namespaces,
    state.occurrences + 1⟩

/-- After the extensions used on the way. -/
def after (state : ExtensionValidationState) (uses : List (String × Value)) :
    ExtensionValidationState := uses.foldl (fun state entry => state.use entry.1) state

theorem after_append (state : ExtensionValidationState) (uses more : List (String × Value)) :
    state.after (uses ++ more) = (state.after uses).after more := List.foldl_append

theorem length_le_after (state : ExtensionValidationState) (uses : List (String × Value)) :
    state.namespaces.length ≤ (state.after uses).namespaces.length ∧
      state.occurrences ≤ (state.after uses).occurrences := by
  induction uses generalizing state with
  | nil => exact ⟨le_rfl, le_rfl⟩
  | cons entry uses ih =>
    obtain ⟨hnamespaces, hoccurrences⟩ := ih (state.use entry.1)
    refine ⟨le_trans ?_ hnamespaces, le_trans (Nat.le_succ _) hoccurrences⟩
    unfold use
    split
    · exact le_rfl
    · exact Nat.le_succ _

theorem occurrences_after (state : ExtensionValidationState) (uses : List (String × Value)) :
    (state.after uses).occurrences = state.occurrences + uses.length := by
  induction uses generalizing state with
  | nil => rfl
  | cons entry uses ih =>
    have h := ih (state.use entry.1)
    rw [List.length_cons]
    show ((state.use entry.1).after uses).occurrences = _
    have hone : (state.use entry.1).occurrences = state.occurrences + 1 := rfl
    omega

theorem namespaces_after (state : ExtensionValidationState) (uses : List (String × Value))
    (hnodup : state.namespaces.Nodup) : (state.after uses).namespaces.Nodup ∧
      ∀ key, key ∈ (state.after uses).namespaces ↔
        key ∈ state.namespaces ∨ key ∈ uses.map Prod.fst := by
  induction uses generalizing state with
  | nil => simpa [after] using hnodup
  | cons entry uses ih =>
    have huse : (state.use entry.1).namespaces.Nodup ∧
        ∀ key, key ∈ (state.use entry.1).namespaces ↔ key ∈ state.namespaces ∨ key = entry.1 := by
      unfold use
      by_cases hmem : entry.1 ∈ state.namespaces
      · rw [if_pos hmem]
        exact ⟨hnodup, fun key => ⟨.inl, fun h => h.elim id fun heq => heq ▸ hmem⟩⟩
      · rw [if_neg hmem]
        exact ⟨List.nodup_cons.mpr ⟨hmem, hnodup⟩, fun key => by rw [List.mem_cons, or_comm]⟩
    obtain ⟨hrest, hmem⟩ := ih (state.use entry.1) huse.1
    refine ⟨hrest, fun key => ?_⟩
    show key ∈ ((state.use entry.1).after uses).namespaces ↔ _
    rw [hmem, huse.2, List.map_cons, List.mem_cons, or_assoc]

/-- The distinct namespaces used from the start. -/
theorem length_namespaces_after (uses : List (String × Value)) :
    (after {} uses).namespaces.length = (uses.map Prod.fst).dedup.length := by
  obtain ⟨hnodup, hmem⟩ := namespaces_after {} uses List.nodup_nil
  refine ((List.perm_ext_iff_of_nodup hnodup (List.nodup_dedup _)).mpr fun key => ?_).length_eq
  rw [hmem, List.mem_dedup]
  simp

end ExtensionValidationState

open ExtensionValidationState

/-- What validating extensions one after another checks, and the state it leaves. -/
structure Accepted (limits : ExtensionLimits) (state : ExtensionValidationState)
    (uses : List (String × Value)) (state' : ExtensionValidationState) : Prop where
  after : state' = state.after uses
  each : ∀ entry ∈ uses, entry.1.utf8ByteSize ≤ limits.namespaceBytes ∧ ValueFits limits entry.2
  namespaces : state'.namespaces.length ≤ limits.namespaces
  occurrences : state'.occurrences ≤ limits.occurrences

section Accepted

variable {limits : ExtensionLimits} {state state' : ExtensionValidationState}
  {uses more : List (String × Value)}

theorem Accepted.comp : (∃ middle, Accepted limits state uses middle ∧
    Accepted limits middle more state') ↔ Accepted limits state (uses ++ more) state' := by
  constructor
  · rintro ⟨_, ⟨rfl, heach, _, _⟩, rfl, heach', hnamespaces, hoccurrences⟩
    exact ⟨(after_append state uses more).symm,
      List.forall_mem_append.mpr ⟨heach, heach'⟩, hnamespaces, hoccurrences⟩
  · rintro ⟨rfl, heach, hnamespaces, hoccurrences⟩
    obtain ⟨heach, heach'⟩ := List.forall_mem_append.mp heach
    rw [after_append] at hnamespaces hoccurrences ⊢
    obtain ⟨hle, hle'⟩ := length_le_after (state.after uses) more
    exact ⟨_, ⟨rfl, heach, hle.trans hnamespaces, hle'.trans hoccurrences⟩, rfl, heach',
      hnamespaces, hoccurrences⟩

/-- Within the limits so far. -/
def Within (limits : ExtensionLimits) (state : ExtensionValidationState) : Prop :=
  state.namespaces.length ≤ limits.namespaces ∧ state.occurrences ≤ limits.occurrences

theorem Accepted.within (h : Accepted limits state uses state') : Within limits state' :=
  ⟨h.namespaces, h.occurrences⟩

theorem accepted_nil (hwithin : Within limits state) :
    Accepted limits state [] state' ↔ state' = state :=
  ⟨fun h => h.after, fun h => ⟨h, fun _ he => absurd he List.not_mem_nil, h ▸ hwithin.1,
    h ▸ hwithin.2⟩⟩

theorem validateExtension_iff {location : Pointer} {key : String} {value : Value}
    (hwithin : Within limits state) :
    validateExtension limits location key value state = .ok state' ↔
      Accepted limits state [(key, value)] state' := by
  obtain ⟨hnamespaces, _⟩ := hwithin
  have hafter : state.after [(key, value)] = state.use key := rfl
  unfold validateExtension
  dsimp only
  constructor
  · intro h
    split_ifs at h with hbytes hfull hcount hmem
    · obtain ⟨_, hrun, h⟩ := bind_eq_ok.mp h
      obtain rfl := Except.ok.inj h
      refine ⟨?_, List.forall_mem_singleton.mpr
        ⟨Nat.le_of_not_lt hbytes, ValueScan.run_start value |>.mp hrun⟩, hnamespaces,
        Nat.le_of_not_lt hcount⟩
      rw [hafter, use, if_pos hmem]
    · obtain ⟨_, hrun, h⟩ := bind_eq_ok.mp h
      obtain rfl := Except.ok.inj h
      refine ⟨?_, List.forall_mem_singleton.mpr
        ⟨Nat.le_of_not_lt hbytes, ValueScan.run_start value |>.mp hrun⟩, ?_,
        Nat.le_of_not_lt hcount⟩
      · rw [hafter, use, if_neg hmem]
      · exact Nat.lt_of_not_le fun hle => hfull ⟨hmem, hle⟩
  · rintro ⟨rfl, heach, hnext, hcount⟩
    obtain ⟨hbytes, hfits⟩ := List.forall_mem_singleton.mp heach
    rw [hafter, use] at hnext hcount
    rw [if_neg (Nat.not_lt.mpr hbytes), if_neg, if_neg (Nat.not_lt.mpr hcount),
      (ValueScan.run_start value).mpr hfits, hafter]
    · rfl
    · rintro ⟨hmem, hfull⟩
      rw [if_neg hmem] at hnext
      exact absurd hnext (Nat.not_le.mpr (Nat.lt_succ_of_le hfull))

theorem validateExtensionEntries_iff {location : Pointer} {entries : List (String × Value)}
    (hwithin : Within limits state) :
    validateExtensionEntries limits location entries state = .ok state' ↔
      Accepted limits state entries state' := by
  induction entries generalizing state with
  | nil =>
    rw [accepted_nil hwithin, validateExtensionEntries, Except.ok.injEq]
    exact eq_comm
  | cons entry entries ih =>
    obtain ⟨key, value⟩ := entry
    rw [validateExtensionEntries, bind_eq_ok, ← List.singleton_append, ← Accepted.comp]
    constructor
    · rintro ⟨middle, hhead, htail⟩
      have hmiddle := (validateExtension_iff hwithin).mp hhead
      exact ⟨middle, hmiddle, (ih hmiddle.within).mp htail⟩
    · rintro ⟨middle, hhead, htail⟩
      exact ⟨middle, (validateExtension_iff hwithin).mpr hhead, (ih hhead.within).mpr htail⟩

end Accepted

/-! ## Elements -/

section Elements

variable {isUri : String → Bool}

def Element.metaValue : Element isUri → ElementMeta isUri
  | .control part => part.metaValue
  | .auto part => part.metaValue
  | .stack part => part.metaValue
  | .grid part => part.metaValue
  | .group part => part.metaValue
  | .tabs part => part.metaValue
  | .text part => part.metaValue

/-- The elements right inside an element. -/
def Element.children : Element isUri → List (Element isUri)
  | .control part => part.itemTemplate.toList
  | .auto _ => []
  | .stack part => part.children
  | .grid part => part.cells.map GridCell.child
  | .group part => [part.child]
  | .tabs part => part.panels.map TabPanel.child
  | .text _ => []

theorem Element.sizeOf_child {element child : Element isUri} (h : child ∈ element.children) :
    sizeOf child < sizeOf element := by
  cases element with
  | control part =>
    obtain ⟨metaValue, binding, label, help, widget, itemTemplate, itemLabel⟩ := part
    have hchild : itemTemplate = some child := Option.mem_toList.mp h
    subst hchild
    simp
    omega
  | auto part => cases h
  | stack part =>
    obtain ⟨metaValue, children⟩ := part
    have hlt : sizeOf child < sizeOf children := List.sizeOf_lt_of_mem h
    simp
    omega
  | grid part =>
    obtain ⟨metaValue, cells⟩ := part
    have hmem : child ∈ cells.map GridCell.child := h
    obtain ⟨⟨compactSpan, wideSpan, inner⟩, hcell, rfl⟩ := List.mem_map.mp hmem
    have hlt := List.sizeOf_lt_of_mem hcell
    simp at hlt ⊢
    omega
  | group part =>
    obtain ⟨metaValue, title, inner⟩ := part
    have hchild : child = inner := List.mem_singleton.mp h
    subst hchild
    simp
    omega
  | tabs part =>
    obtain ⟨metaValue, panels⟩ := part
    have hmem : child ∈ panels.map TabPanel.child := h
    obtain ⟨⟨title, inner⟩, hpanel, rfl⟩ := List.mem_map.mp hmem
    have hlt := List.sizeOf_lt_of_mem hpanel
    simp at hlt ⊢
    omega
  | text part => cases h

/-- The extensions of an element and of everything inside it. -/
def Element.uses (element : Element isUri) : List (String × Value) :=
  element.metaValue.extensions.entries ++
    element.children.attach.flatMap fun child => child.1.uses
termination_by sizeOf element
decreasing_by exact Element.sizeOf_child child.2

theorem Element.uses_eq (element : Element isUri) : element.uses =
    element.metaValue.extensions.entries ++ element.children.flatMap fun child => child.uses := by
  rw [Element.uses, List.flatMap_def, List.flatMap_def]
  exact congrArg (element.metaValue.extensions.entries ++ List.flatten ·) List.attach_map_val

variable {limits : ExtensionLimits}

/-- Validating an element accepts what is used inside it. -/
def Validates (limits : ExtensionLimits) (element : Element isUri) : Prop :=
  ∀ (location : Pointer) (state state' : ExtensionValidationState), Within limits state →
    (validateElementExtensions limits location element state = .ok state' ↔
      Accepted limits state element.uses state')

/-- The entries of an element, and then what is inside it. -/
theorem entries_then {location : Pointer} {entries inside : List (String × Value)}
    {rest : ExtensionValidationState → Except ExtensionValidationError ExtensionValidationState}
    {state state' : ExtensionValidationState} (hwithin : Within limits state)
    (hrest : ∀ middle, Within limits middle →
      (rest middle = .ok state' ↔ Accepted limits middle inside state')) :
    (do
      let state ← validateExtensionEntries limits location entries state
      rest state) = .ok state' ↔ Accepted limits state (entries ++ inside) state' := by
  rw [bind_eq_ok, ← Accepted.comp]
  constructor
  · rintro ⟨middle, hentries, h⟩
    have hmiddle := (validateExtensionEntries_iff hwithin).mp hentries
    exact ⟨middle, hmiddle, (hrest middle hmiddle.within).mp h⟩
  · rintro ⟨middle, hmiddle, h⟩
    exact ⟨middle, (validateExtensionEntries_iff hwithin).mpr hmiddle,
      (hrest middle hmiddle.within).mpr h⟩

/-- One child, and then the next ones. -/
theorem child_then {child : Element isUri} (hchild : Validates limits child) {location : Pointer}
    {inside : List (String × Value)}
    {rest : ExtensionValidationState → Except ExtensionValidationError ExtensionValidationState}
    {state state' : ExtensionValidationState} (hwithin : Within limits state)
    (hrest : ∀ middle, Within limits middle →
      (rest middle = .ok state' ↔ Accepted limits middle inside state')) :
    (do
      let state ← validateElementExtensions limits location child state
      rest state) = .ok state' ↔ Accepted limits state (child.uses ++ inside) state' := by
  rw [bind_eq_ok, ← Accepted.comp]
  constructor
  · rintro ⟨middle, hvalidate, h⟩
    have hmiddle := (hchild location state middle hwithin).mp hvalidate
    exact ⟨middle, hmiddle, (hrest middle hmiddle.within).mp h⟩
  · rintro ⟨middle, hmiddle, h⟩
    exact ⟨middle, (hchild location state middle hwithin).mpr hmiddle,
      (hrest middle hmiddle.within).mpr h⟩

theorem ok_iff_accepted_nil {state state' : ExtensionValidationState}
    (hwithin : Within limits state) :
    (Except.ok state : Except ExtensionValidationError ExtensionValidationState) = .ok state' ↔
      Accepted limits state [] state' := by
  rw [accepted_nil hwithin, Except.ok.injEq]
  exact eq_comm

theorem validateChildren_iff {children : List (Element isUri)}
    (h : ∀ child ∈ children, Validates limits child) (location : Pointer) (index : Nat)
    (state state' : ExtensionValidationState) (hwithin : Within limits state) :
    validateChildren limits location index children state = .ok state' ↔
      Accepted limits state (children.flatMap fun child => child.uses) state' := by
  induction children generalizing index state with
  | nil =>
    rw [validateChildren]
    exact ok_iff_accepted_nil hwithin
  | cons child children ih =>
    obtain ⟨hchild, hrest⟩ := List.forall_mem_cons.mp h
    rw [validateChildren, List.flatMap_cons]
    exact child_then hchild hwithin fun middle hmiddle => ih hrest (index + 1) middle hmiddle

theorem validateCells_iff {cells : List (GridCell (Element isUri))}
    (h : ∀ cell ∈ cells, Validates limits cell.child) (location : Pointer) (index : Nat)
    (state state' : ExtensionValidationState) (hwithin : Within limits state) :
    validateCells limits location index cells state = .ok state' ↔
      Accepted limits state ((cells.map GridCell.child).flatMap fun child => child.uses)
        state' := by
  induction cells generalizing index state with
  | nil =>
    rw [validateCells]
    exact ok_iff_accepted_nil hwithin
  | cons cell cells ih =>
    obtain ⟨compactSpan, wideSpan, child⟩ := cell
    obtain ⟨hchild, hrest⟩ := List.forall_mem_cons.mp h
    rw [validateCells, validateCell, List.map_cons, List.flatMap_cons]
    exact child_then hchild hwithin fun middle hmiddle => ih hrest (index + 1) middle hmiddle

theorem validatePanels_iff {panels : List (TabPanel (Element isUri))}
    (h : ∀ panel ∈ panels, Validates limits panel.child) (location : Pointer) (index : Nat)
    (state state' : ExtensionValidationState) (hwithin : Within limits state) :
    validatePanels limits location index panels state = .ok state' ↔
      Accepted limits state ((panels.map TabPanel.child).flatMap fun child => child.uses)
        state' := by
  induction panels generalizing index state with
  | nil =>
    rw [validatePanels]
    exact ok_iff_accepted_nil hwithin
  | cons panel panels ih =>
    obtain ⟨title, child⟩ := panel
    obtain ⟨hchild, hrest⟩ := List.forall_mem_cons.mp h
    rw [validatePanels, validatePanel, List.map_cons, List.flatMap_cons]
    exact child_then hchild hwithin fun middle hmiddle => ih hrest (index + 1) middle hmiddle

theorem validateElementExtensions_iff (element : Element isUri) : Validates limits element := by
  induction element using Element.induct with
  | control control h =>
    obtain ⟨metaValue, binding, label, help, widget, itemTemplate, itemLabel⟩ := control
    intro location state state' hwithin
    rw [validateElementExtensions, validateControl, Element.uses_eq]
    refine entries_then hwithin fun middle hmiddle => ?_
    cases itemTemplate with
    | none => exact ok_iff_accepted_nil hmiddle
    | some template =>
      have hinside : [template].flatMap (fun child => child.uses) = template.uses :=
        List.flatMap_singleton _ _
      have htemplate := h template rfl (location ++ ["value", "item_template"]) middle state' hmiddle
      rw [validateTemplate, htemplate]
      exact (congrArg (Accepted limits middle · state') hinside.symm).to_iff
  | auto auto =>
    intro location state state' hwithin
    rw [validateElementExtensions, Element.uses_eq, Element.children, List.flatMap_nil,
      List.append_nil]
    exact validateExtensionEntries_iff hwithin
  | stack stack h =>
    obtain ⟨metaValue, children⟩ := stack
    intro location state state' hwithin
    rw [validateElementExtensions, validateStack, Element.uses_eq]
    exact entries_then hwithin fun middle hmiddle =>
      validateChildren_iff h location 0 middle state' hmiddle
  | grid grid h =>
    obtain ⟨metaValue, cells⟩ := grid
    intro location state state' hwithin
    rw [validateElementExtensions, validateGrid, Element.uses_eq]
    exact entries_then hwithin fun middle hmiddle =>
      validateCells_iff h location 0 middle state' hmiddle
  | group group h =>
    obtain ⟨metaValue, title, child⟩ := group
    intro location state state' hwithin
    rw [validateElementExtensions, validateGroup, Element.uses_eq]
    refine entries_then hwithin fun middle hmiddle => ?_
    have hinside : [child].flatMap (fun child => child.uses) = child.uses :=
      List.flatMap_singleton _ _
    rw [h (location ++ ["value", "child"]) middle state' hmiddle]
    exact (congrArg (Accepted limits middle · state') hinside.symm).to_iff
  | tabs tabs h =>
    obtain ⟨metaValue, panels⟩ := tabs
    intro location state state' hwithin
    rw [validateElementExtensions, validateTabs, Element.uses_eq]
    exact entries_then hwithin fun middle hmiddle =>
      validatePanels_iff h location 0 middle state' hmiddle
  | text text =>
    intro location state state' hwithin
    rw [validateElementExtensions, Element.uses_eq, Element.children, List.flatMap_nil,
      List.append_nil]
    exact validateExtensionEntries_iff hwithin

/-! ## Schemas -/

theorem validateRequired_iff (required : List (ExtensionNamespace isUri)) (index : Nat)
    (declared : List String) : validateRequired limits index required declared = .ok () ↔
      (required ≠ [] → index + required.length ≤ limits.namespaces) ∧
      (∀ key ∈ required, key.text.utf8ByteSize ≤ limits.namespaceBytes) ∧
      (required.map (·.text)).Nodup ∧ ∀ key ∈ required, key.text ∉ declared := by
  induction required generalizing index declared with
  | nil => simp [validateRequired]
  | cons key required ih =>
    rw [validateRequired, List.forall_mem_cons, List.forall_mem_cons, List.map_cons,
      List.nodup_cons, List.length_cons]
    constructor
    · intro h
      split_ifs at h with hindex hbytes hdeclared
      obtain ⟨hlength, hrest, hnodup, hfresh⟩ := (ih _ _).mp h
      refine ⟨fun _ => ?_, ⟨Nat.le_of_not_lt hbytes, hrest⟩, ⟨?_, hnodup⟩, hdeclared,
        fun other hother hmem => hfresh other hother (List.mem_cons_of_mem _ hmem)⟩
      · cases required with
        | nil =>
          rw [List.length_nil]
          omega
        | cons _ _ =>
          have hle := hlength (List.cons_ne_nil _ _)
          omega
      · rintro hmem
        obtain ⟨other, hother, heq⟩ := List.mem_map.mp hmem
        exact hfresh other hother (heq ▸ List.mem_cons_self)
    · rintro ⟨hlength, ⟨hbytes, hrest⟩, ⟨hfirst, hnodup⟩, hdeclared, hfresh⟩
      have hle := hlength (List.cons_ne_nil _ _)
      rw [if_neg (by omega), if_neg (Nat.not_lt.mpr hbytes), if_neg hdeclared]
      refine (ih _ _).mpr ⟨fun _ => by omega, hrest, hnodup, fun other hother hmem => ?_⟩
      rcases List.mem_cons.mp hmem with heq | hmem
      · exact hfirst (List.mem_map.mpr ⟨other, hother, heq⟩)
      · exact hfresh other hother hmem

theorem checkRequiredUsed_iff {namespaces : List String}
    (required : List (ExtensionNamespace isUri)) (index : Nat) :
    checkRequiredUsed namespaces index required = .ok () ↔
      ∀ key ∈ required, key.text ∈ namespaces := by
  induction required generalizing index with
  | nil => simp [checkRequiredUsed]
  | cons key required ih =>
    rw [checkRequiredUsed, List.forall_mem_cons]
    split
    · rename_i hmissing
      exact iff_of_false (fun h => by cases h) fun h => hmissing h.1
    · rename_i hused
      rw [ih, and_iff_right (not_not.mp hused)]

/-- The extensions of a schema are as required and within the limits. -/
structure ExtensionsValid (limits : ExtensionLimits) (schema : UiSchema isUri) : Prop where
  distinct : (schema.requiredExtensions.map (·.text)).Nodup
  required : schema.requiredExtensions.length ≤ limits.namespaces
  requiredBytes : ∀ key ∈ schema.requiredExtensions, key.text.utf8ByteSize ≤ limits.namespaceBytes
  used : ∀ key ∈ schema.requiredExtensions, key.text ∈ schema.root.uses.map Prod.fst
  namespaces : (schema.root.uses.map Prod.fst).dedup.length ≤ limits.namespaces
  namespaceBytes : ∀ entry ∈ schema.root.uses, entry.1.utf8ByteSize ≤ limits.namespaceBytes
  occurrences : schema.root.uses.length ≤ limits.occurrences
  values : ∀ entry ∈ schema.root.uses, ValueFits limits entry.2

theorem UiSchema.validateExtensions_iff (schema : UiSchema isUri) :
    schema.validateExtensions limits = .ok () ↔ ExtensionsValid limits schema := by
  have hstart : Within limits {} := ⟨Nat.zero_le _, Nat.zero_le _⟩
  have hmem (key : String) : key ∈ (ExtensionValidationState.after {} schema.root.uses).namespaces ↔
      key ∈ schema.root.uses.map Prod.fst := by
    rw [(namespaces_after {} schema.root.uses List.nodup_nil).2]
    simp
  have hcount := occurrences_after {} schema.root.uses
  rw [Nat.zero_add] at hcount
  unfold UiSchema.validateExtensions
  rw [bind_eq_ok]
  constructor
  · rintro ⟨_, hrequired, h⟩
    obtain ⟨state, hroot, hused⟩ := bind_eq_ok.mp h
    obtain ⟨rfl, heach, hnamespaces, hoccurrences⟩ :=
      (validateElementExtensions_iff schema.root _ _ _ hstart).mp hroot
    obtain ⟨hlength, hbytes, hnodup, _⟩ := (validateRequired_iff _ _ _).mp hrequired
    refine ⟨hnodup, ?_, hbytes, fun key hkey => (hmem _).mp
      ((checkRequiredUsed_iff _ _).mp hused key hkey), length_namespaces_after _ ▸ hnamespaces,
      fun entry hentry => (heach entry hentry).1, hcount ▸ hoccurrences,
      fun entry hentry => (heach entry hentry).2⟩
    cases hcases : schema.requiredExtensions with
    | nil => exact Nat.zero_le _
    | cons key required =>
      rw [hcases, Nat.zero_add] at hlength
      exact hlength (List.cons_ne_nil _ _)
  · rintro ⟨hnodup, hlength, hrequired, hused, hnamespaces, hbytes, hoccurrences, hvalues⟩
    refine ⟨(), (validateRequired_iff _ _ _).mpr ⟨fun _ => (Nat.zero_add _).symm ▸ hlength,
      hrequired, hnodup, fun _ _ => List.not_mem_nil⟩, bind_eq_ok.mpr ⟨_,
      (validateElementExtensions_iff schema.root _ _ _ hstart).mpr ⟨rfl,
        fun entry hentry => ⟨hbytes entry hentry, hvalues entry hentry⟩,
        (length_namespaces_after _).symm ▸ hnamespaces, hcount.symm ▸ hoccurrences⟩,
      (checkRequiredUsed_iff _ _).mpr fun key hkey => (hmem _).mpr (hused key hkey)⟩⟩

end Elements

/-- What the validation accepts, and what its work list holds: under a limit of no nodes, the value
that is about to be refused. -/
theorem validate_extensions_exact {isUri : String → Bool} (schema : UiSchema isUri)
    (limits : ExtensionLimits) :
    (schema.validateExtensions limits = .ok () ↔ ExtensionsValid limits schema) ∧
    ∀ (location : Pointer) (value : Value) (scan : ValueScan),
      ValueScan.Reachable limits location value scan →
        scan.pending.length ≤ limits.valueNodes ∨
          limits.valueNodes = 0 ∧ scan = ValueScan.start value :=
  ⟨schema.validateExtensions_iff, fun _ _ _ => ValueScan.pending_length⟩

/-- No nodes are allowed, and the value is pending at the start. -/
theorem validate_extensions_no_nodes :
    ¬ ∀ (isUri : String → Bool) (schema : UiSchema isUri) (limits : ExtensionLimits),
      (schema.validateExtensions limits = .ok () ↔ ExtensionsValid limits schema) ∧
      ∀ (location : Pointer) (value : Value) (scan : ValueScan),
        ValueScan.Reachable limits location value scan →
          scan.pending.length ≤ limits.valueNodes := by
  intro h
  have hpending := (h (fun _ => true) ⟨.v1, [], .text ⟨⟨none, .empty⟩, ⟨"Hello", none⟩⟩⟩
    ⟨8, 8, 64, 8, 0, 64⟩).2 ["root", "value", "extensions", "urn:count"] (.number "1")
    (ValueScan.start (.number "1")) Relation.ReflTransGen.refl
  exact absurd hpending (by decide)

end Schemaform.Ui.V1
