import Schemaform.Json.Size

/-!
# Ui.Serde

The data model the derived `Serialize` and `Deserialize` implementations share, over JSON values.

* `record`, `newtypeVariant`, `adjacent`: what structs and variants are written as.
* `structFields`, `variantAccess`, `adjacentlyTagged`: what they are read from. A struct is read
  from an object without unknown fields, or from an array of its fields in order.
* `structFields_record`: a written struct is read back field by field.
* `Value.nodes`: what a reader hands to the readers of its parts is smaller than what it reads.
-/

namespace Schemaform.Ui

/-! ## Writing -/

/-- A struct, its fields inserted one after another. -/
def record (fields : List (String × Value)) : Value :=
  .object (SortedMap.ofEntries fields)

def serializeOption {α : Type} (serialize : α → Value) : Option α → Value
  | none => .null
  | some value => serialize value

def newtypeVariant (name : String) (content : Value) : Value := .object [(name, content)]

/-- `#[serde(tag = "type", content = "value")]` -/
def adjacent (tag : String) (content : Value) : Value :=
  record [("type", .string tag), ("value", content)]

/-! ## Reading -/

def deserializeString : Value → Option String := Value.asString

def deserializeOption {α : Type} (deserialize : Value → Option α) : Value → Option (Option α)
  | .null => some none
  | value => (deserialize value).map some

def deserializeItems {α : Type} (deserialize : Value → Option α) : List Value → Option (List α)
  | [] => some []
  | item :: items => do
    let item ← deserialize item
    let items ← deserializeItems deserialize items
    return item :: items

def deserializeVec {α : Type} (deserialize : Value → Option α) : Value → Option (List α)
  | .array items => deserializeItems deserialize items
  | _ => none

/-- `#[derive(Deserialize)] #[serde(deny_unknown_fields)]`: what stands for each field. The first
`leading` fields of an array cannot be left out. -/
def structFields (names : List String) (leading : Nat) (value : Value) :
    Option (String → Option Value) :=
  match value with
  | .object members =>
    if members.all fun member => names.contains member.1 then
      some fun name => SortedMap.get name members
    else none
  | .array items =>
    if leading ≤ items.length ∧ items.length ≤ names.length then
      some fun name => (names.zip items).lookup name
    else none
  | _ => none

def requiredField {α : Type} (fields : String → Option Value) (name : String)
    (deserialize : Value → Option α) : Option α :=
  (fields name).bind deserialize

/-- `#[serde(default)]` -/
def defaultedField {α : Type} (fields : String → Option Value) (name : String) (default : α)
    (deserialize : Value → Option α) : Option α :=
  match fields name with
  | none => some default
  | some value => deserialize value

/-- The name of a variant and its content. -/
def variantAccess : Value → Option (String × Option Value)
  | .string name => some (name, none)
  | .object [(name, content)] => some (name, some content)
  | _ => none

def unitVariant (content : Option Value) : Option Unit :=
  match content with
  | none | some .null => some ()
  | some _ => none

def adjacentlyTagged (value : Value) : Option (String × Value) := do
  let fields ← structFields ["type", "value"] 2 value
  let (tag, unit) ← requiredField fields "type" variantAccess
  unitVariant unit
  let content ← fields "value"
  return (tag, content)

/-! ## Reading back -/

theorem lookup_cons (name key : String) (value : Value) (fields : List (String × Value)) :
    List.lookup name ((key, value) :: fields) =
      if name = key then some value else fields.lookup name := by
  rw [List.lookup_cons]
  by_cases hname : name = key
  · rw [if_pos hname, beq_iff_eq.mpr hname]
  · rw [if_neg hname, beq_eq_false_iff_ne.mpr hname]

theorem structFields_record {names : List String} {leading : Nat} {fields : List (String × Value)}
    (hnames : ∀ field ∈ fields, field.1 ∈ names) (hnodup : (fields.map Prod.fst).Nodup) :
    structFields names leading (record fields) = some fun name => fields.lookup name := by
  have hall : (SortedMap.ofEntries fields).all (fun member => names.contains member.1) = true := by
    rw [List.all_eq_true]
    intro e he
    exact List.contains_iff_mem.mpr (hnames e ((SortedMap.ofEntries_subperm fields).subset he))
  unfold structFields record
  dsimp only
  rw [if_pos hall]
  exact congrArg some (funext fun name => SortedMap.get_ofEntries hnodup name)

theorem adjacentlyTagged_adjacent (tag : String) (content : Value) :
    adjacentlyTagged (adjacent tag content) = some (tag, content) := by
  unfold adjacentlyTagged adjacent
  rw [structFields_record (by simp) (by simp)]
  simp [requiredField, lookup_cons, variantAccess, unitVariant]

theorem deserializeItems_map {α : Type} {serialize : α → Value} {deserialize : Value → Option α}
    {items : List α} (h : ∀ item ∈ items, deserialize (serialize item) = some item) :
    deserializeItems deserialize (items.map serialize) = some items := by
  induction items with
  | nil => rfl
  | cons item items ih =>
    rw [List.map_cons, deserializeItems, h item List.mem_cons_self,
      ih fun other ho => h other (List.mem_cons_of_mem _ ho)]
    rfl

theorem deserializeOption_serialize {α : Type} {serialize : α → Value}
    {deserialize : Value → Option α} {value : Option α}
    (h : ∀ inner ∈ value, deserialize (serialize inner) = some inner)
    (hnull : ∀ inner, serialize inner ≠ .null) :
    deserializeOption deserialize (serializeOption serialize value) = some value := by
  cases value with
  | none => rfl
  | some inner =>
    have hinner := h inner rfl
    show deserializeOption deserialize (serialize inner) = _
    unfold deserializeOption
    split
    · rename_i hs
      exact absurd hs (hnull inner)
    · rw [hinner]
      rfl

/-! ## Sizes -/

theorem structFields_smaller {names : List String} {leading : Nat} {value inner : Value}
    {fields : String → Option Value} {name : String}
    (h : structFields names leading value = some fields) (hf : fields name = some inner) :
    inner.nodeCount < value.nodeCount := by
  cases value with
  | object members =>
    unfold structFields at h
    dsimp only at h
    split at h
    · obtain rfl := Option.some.inj h
      exact Value.nodeCount_member (SortedMap.mem_of_get hf)
    · cases h
  | array items =>
    unfold structFields at h
    dsimp only at h
    split at h
    · obtain rfl := Option.some.inj h
      obtain ⟨before, after, hzip, -⟩ := List.lookup_eq_some_iff.mp hf
      have hmem : (name, inner) ∈ names.zip items := by
        rw [hzip]
        simp
      exact Value.nodeCount_item (List.of_mem_zip hmem).2
    · cases h
  | _ => cases h

theorem adjacentlyTagged_smaller {value content : Value} {tag : String}
    (h : adjacentlyTagged value = some (tag, content)) : content.nodeCount < value.nodeCount := by
  obtain ⟨fields, hfields, h⟩ := Option.bind_eq_some_iff.mp h
  obtain ⟨variant, -, h⟩ := Option.bind_eq_some_iff.mp h
  obtain ⟨-, -, h⟩ := Option.bind_eq_some_iff.mp h
  obtain ⟨inner, hinner, h⟩ := Option.bind_eq_some_iff.mp h
  obtain ⟨-, rfl⟩ := Prod.mk.inj (Option.some.inj h)
  exact structFields_smaller hfields hinner

section Congruence

variable {α : Type} {deserialize other : Value → Option α} {value : Value}
  (h : ∀ inner : Value, inner.nodeCount < value.nodeCount → deserialize inner = other inner)

include h

theorem deserializeVec_congr : deserializeVec deserialize value = deserializeVec other value := by
  cases value with
  | array items =>
    have hitems : ∀ l : List Value, (∀ v ∈ l, v ∈ items) →
        deserializeItems deserialize l = deserializeItems other l := by
      intro l
      induction l with
      | nil => exact fun _ => rfl
      | cons v l ih =>
        intro hl
        rw [deserializeItems, deserializeItems,
          h v (Value.nodeCount_item (hl v List.mem_cons_self)),
          ih fun w hw => hl w (List.mem_cons_of_mem _ hw)]
    exact hitems items fun _ hv => hv
  | _ => rfl

theorem requiredField_congr {names : List String} {leading : Nat}
    {fields : String → Option Value} (hf : structFields names leading value = some fields)
    (name : String) : requiredField fields name deserialize = requiredField fields name other := by
  unfold requiredField
  cases hn : fields name with
  | none => rfl
  | some inner => exact h inner (structFields_smaller hf hn)

theorem deserializeOption_congr {inner : Value} (hi : inner.nodeCount < value.nodeCount) :
    deserializeOption deserialize inner = deserializeOption other inner := by
  unfold deserializeOption
  split
  · rfl
  · rw [h _ hi]

theorem defaultedField_congr {names : List String} {leading : Nat}
    {fields : String → Option Value} (hf : structFields names leading value = some fields)
    (name : String) (default : α) :
    defaultedField fields name default deserialize = defaultedField fields name default other := by
  unfold defaultedField
  cases hn : fields name with
  | none => rfl
  | some inner => exact h inner (structFields_smaller hf hn)

end Congruence

end Schemaform.Ui
