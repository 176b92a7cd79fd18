import Mathlib.Algebra.Order.BigOperators.Group.List
import Mathlib.Algebra.Ring.Nat
import Schemaform.Json.Value

/-!
# Json.Size

What a value weighs.

* `Value.total`: a weight summed over a value, with `nodeCount` and `memberCount`.
* `Value.height`, `longestCollection`, `longestScalar`: the deepest and the largest part.
* `nodeCount_item`, `nodeCount_member`: a part has fewer nodes than the whole.
-/

namespace Schemaform

namespace Value

mutual

/-- A weight summed over a value and everything in it. -/
def total (weight : Value → Nat) : Value → Nat
  | .array items => weight (.array items) + totalItems weight items
  | .object members => weight (.object members) + totalMembers weight members
  | value => weight value

def totalItems (weight : Value → Nat) : List Value → Nat
  | [] => 0
  | v :: vs => total weight v + totalItems weight vs

def totalMembers (weight : Value → Nat) : List (String × Value) → Nat
  | [] => 0
  | (_, v) :: vs => total weight v + totalMembers weight vs

end

variable {weight : Value → Nat}

theorem totalItems_eq (items : List Value) :
    totalItems weight items = (items.map (total weight)).sum := by
  induction items with
  | nil => rfl
  | cons v vs ih => rw [totalItems, ih, List.map_cons, List.sum_cons]

theorem totalMembers_eq (members : List (String × Value)) :
    totalMembers weight members = (members.map fun e => total weight e.2).sum := by
  induction members with
  | nil => rfl
  | cons e vs ih => rw [totalMembers, ih, List.map_cons, List.sum_cons]

theorem total_array (items : List Value) : total weight (.array items) =
    weight (.array items) + (items.map (total weight)).sum := by
  rw [total, totalItems_eq]

theorem total_object (members : List (String × Value)) : total weight (.object members) =
    weight (.object members) + (members.map fun e => total weight e.2).sum := by
  rw [total, totalMembers_eq]

/-- How many members an object has itself. -/
def width : Value → Nat
  | .object members => members.length
  | _ => 0

def nodeCount (v : Value) : Nat := total (fun _ => 1) v

def memberCount (v : Value) : Nat := total width v

def scalarBytes : Value → Nat
  | .null => 4
  | .bool b => if b then 4 else 5
  | .number literal => literal.utf8ByteSize
  | .string s => s.utf8ByteSize
  | .array _ | .object _ => 0

theorem nodeCount_array (items : List Value) :
    (Value.array items).nodeCount = 1 + (items.map nodeCount).sum := total_array items

theorem memberCount_array (items : List Value) :
    (Value.array items).memberCount = 0 + (items.map memberCount).sum :=
  total_array items

theorem nodeCount_object (members : List (String × Value)) :
    (Value.object members).nodeCount = 1 + (members.map fun e => e.2.nodeCount).sum :=
  total_object members

theorem memberCount_object (members : List (String × Value)) :
    (Value.object members).memberCount =
      members.length + (members.map fun e => e.2.memberCount).sum := total_object members

theorem nodeCount_pos (v : Value) : 0 < v.nodeCount := by
  cases v with
  | array items => exact Nat.lt_of_lt_of_le Nat.one_pos (Nat.le_add_right _ _)
  | object members => exact Nat.lt_of_lt_of_le Nat.one_pos (Nat.le_add_right _ _)
  | _ => exact Nat.one_pos

theorem nodeCount_item {items : List Value} {v : Value} (h : v ∈ items) :
    v.nodeCount < (Value.array items).nodeCount := by
  have hle := List.single_le_sum (fun _ _ => Nat.zero_le _) _ (List.mem_map_of_mem (f := nodeCount) h)
  rw [nodeCount_array]
  omega

theorem nodeCount_member {members : List (String × Value)} {e : String × Value}
    (h : e ∈ members) : e.2.nodeCount < (Value.object members).nodeCount := by
  have hle := List.single_le_sum (fun _ _ => Nat.zero_le _) _
    (List.mem_map_of_mem (f := fun e : String × Value => e.2.nodeCount) h)
  rw [nodeCount_object]
  omega

/-! ## The largest of something -/

mutual

/-- The largest measure of a value, a key or anything below. -/
def peak (own : Value → Nat) (key : String → Nat) : Value → Nat
  | .array items => max (own (.array items)) (peakItems own key items)
  | .object members => max (own (.object members)) (peakMembers own key members)
  | value => own value

def peakItems (own : Value → Nat) (key : String → Nat) : List Value → Nat
  | [] => 0
  | v :: vs => max (peak own key v) (peakItems own key vs)

def peakMembers (own : Value → Nat) (key : String → Nat) : List (String × Value) → Nat
  | [] => 0
  | (name, v) :: vs => max (max (key name) (peak own key v)) (peakMembers own key vs)

end

mutual

/-- How deep values lie below a value. -/
def height : Value → Nat
  | .array items => heightItems items
  | .object members => heightMembers members
  | _ => 0

def heightItems : List Value → Nat
  | [] => 0
  | v :: vs => max (height v + 1) (heightItems vs)

def heightMembers : List (String × Value) → Nat
  | [] => 0
  | (_, v) :: vs => max (height v + 1) (heightMembers vs)

end

def collectionLength : Value → Nat
  | .array items => items.length
  | .object members => members.length
  | _ => 0

def longestCollection (v : Value) : Nat := peak collectionLength (fun _ => 0) v

/-- Keys count as scalars. -/
def longestScalar (v : Value) : Nat := peak scalarBytes String.utf8ByteSize v

section Peak

variable {own : Value → Nat} {key : String → Nat} {bound : Nat}

theorem peakItems_le {items : List Value} :
    peakItems own key items ≤ bound ↔ ∀ v ∈ items, peak own key v ≤ bound := by
  induction items with
  | nil => simp [peakItems]
  | cons v vs ih => rw [peakItems, max_le_iff, ih, List.forall_mem_cons]

theorem peakMembers_le {members : List (String × Value)} : peakMembers own key members ≤ bound ↔
    ∀ e ∈ members, key e.1 ≤ bound ∧ peak own key e.2 ≤ bound := by
  induction members with
  | nil => simp [peakMembers]
  | cons e vs ih => rw [peakMembers, max_le_iff, max_le_iff, ih, List.forall_mem_cons]

theorem heightItems_le {items : List Value} :
    heightItems items ≤ bound ↔ ∀ v ∈ items, height v + 1 ≤ bound := by
  induction items with
  | nil => simp [heightItems]
  | cons v vs ih => rw [heightItems, max_le_iff, ih, List.forall_mem_cons]

theorem heightMembers_le {members : List (String × Value)} :
    heightMembers members ≤ bound ↔ ∀ e ∈ members, height e.2 + 1 ≤ bound := by
  induction members with
  | nil => simp [heightMembers]
  | cons e vs ih => rw [heightMembers, max_le_iff, ih, List.forall_mem_cons]

end Peak

end Value

end Schemaform
