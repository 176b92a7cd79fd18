import Mathlib.Logic.Relation
import Schemaform.Source.Bounds
import Schemaform.Ui.Extensions

/-!
# Ui.ExtensionValue

What the work list over one extension value accepts.

* `ValueScan.passes_step`: a step keeps what is pending within the limits, or refuses it.
* `ValueScan.run_iff`, `run_start`: a value passes by its height, its nodes and its bytes.
* `ValueScan.pending_length`: what the work list holds on the way.
-/

namespace Schemaform.Value

/-- What a value and everything in it weigh. -/
def extensionTotal (v : Value) : Nat := total extensionBytes v

theorem extensionTotal_children (v : Value) : v.extensionTotal = v.extensionBytes +
    (v.children.map fun child => child.extensionTotal).sum := by
  cases v with
  | array items => exact total_array items
  | object members =>
    rw [extensionTotal, total_object, children, List.map_map]
    rfl
  | _ => rfl

theorem add_height_children {depth bound : Nat} (v : Value) : depth + v.height ≤ bound ↔
    depth ≤ bound ∧ ∀ child ∈ v.children, depth + 1 + child.height ≤ bound := by
  cases v with
  | array items => exact Source.add_height_array
  | object members =>
    rw [children, List.forall_mem_map]
    exact Source.add_height_object
  | _ => simp [height, children]

end Schemaform.Value

namespace Schemaform.Ui.V1

/-! ## One value -/

/-- At most so deep, the value itself counting one, with so many nodes and bytes. -/
structure ValueFits (limits : ExtensionLimits) (value : Value) : Prop where
  depth : 1 + value.height ≤ limits.valueDepth
  nodes : value.nodeCount ≤ limits.valueNodes
  bytes : value.extensionTotal ≤ limits.valueBytes

namespace ValueScan

variable {limits : ExtensionLimits} {location : Pointer}

/-- What is pending passes, from what has been counted. -/
structure Passes (limits : ExtensionLimits) (scan : ValueScan) : Prop where
  depth : ∀ entry ∈ scan.pending, entry.2 + entry.1.height ≤ limits.valueDepth
  nodes : scan.nodes + scan.remaining ≤ limits.valueNodes
  bytes : scan.bytes + (scan.pending.map fun entry => entry.1.extensionTotal).sum ≤
    limits.valueBytes

theorem length_le_sum_nodeCount (values : List Value) :
    values.length ≤ (values.map fun value => value.nodeCount).sum := by
  induction values with
  | nil => exact le_rfl
  | cons value values ih =>
    have hpos := value.nodeCount_pos
    rw [List.length_cons, List.map_cons, List.sum_cons]
    omega

/-- A step goes wrong nowhere but on what does not pass. -/
theorem passes_step {scan : ValueScan} {value : Value} {depth : Nat}
    {pending : List (Value × Nat)} (hpending : scan.pending = (value, depth) :: pending) :
    Passes limits scan ↔ ∃ next, scan.step limits location = .ok (some next) ∧
      Passes limits next := by
  have hlength : pending.length ≤ (pending.map fun entry => entry.1.nodeCount).sum := by
    have h := length_le_sum_nodeCount (pending.map Prod.fst)
    rwa [List.length_map, List.map_map] at h
  have hchildren := length_le_sum_nodeCount value.children
  have hnodes := value.nodeCount_children
  have hbytes := value.extensionTotal_children
  constructor
  · rintro ⟨hdepth, hnode, hbyte⟩
    rw [remaining, hpending, List.map_cons, List.sum_cons] at hnode
    rw [hpending, List.map_cons, List.sum_cons] at hbyte
    rw [hpending, List.forall_mem_cons] at hdepth
    dsimp only at hnode hbyte hdepth
    obtain ⟨hhead, htail⟩ := hdepth
    obtain ⟨hhere, hbelow⟩ := (Value.add_height_children value).mp hhead
    refine ⟨_, step_some.mpr ⟨value, depth, pending, hpending, hhere, by omega, by omega, rfl⟩,
      ?_, ?_, ?_⟩
    · intro entry hentry
      rcases List.mem_append.mp hentry with hentry | hentry
      · obtain ⟨child, hchild, rfl⟩ := List.mem_map.mp (List.mem_reverse.mp hentry)
        exact hbelow child hchild
      · exact htail entry hentry
    · simp only [remaining, List.map_append, List.map_reverse, List.sum_append, List.sum_reverse,
        List.map_map, Function.comp_def]
      omega
    · simp only [List.map_append, List.map_reverse, List.sum_append, List.sum_reverse,
        List.map_map, Function.comp_def]
      omega
  · rintro ⟨next, hstep, hdepth, hnode, hbyte⟩
    obtain ⟨_, _, _, heq, hhere, -, -, rfl⟩ := step_some.mp hstep
    obtain ⟨hentry, rfl⟩ := List.cons.inj (hpending.symm.trans heq)
    obtain ⟨rfl, rfl⟩ := Prod.mk.inj hentry
    simp only [remaining, List.map_append, List.map_reverse, List.sum_append, List.sum_reverse,
      List.map_map, Function.comp_def] at hnode hbyte
    refine ⟨?_, ?_, ?_⟩
    · rw [hpending, List.forall_mem_cons]
      refine ⟨(Value.add_height_children value).mpr ⟨hhere, fun child hchild => ?_⟩, ?_⟩
      · exact hdepth (child, depth + 1) (List.mem_append_left _
          (List.mem_reverse.mpr (List.mem_map_of_mem hchild)))
      · exact fun entry hentry => hdepth entry (List.mem_append_right _ hentry)
    · rw [remaining, hpending, List.map_cons, List.sum_cons]
      dsimp only
      omega
    · rw [hpending, List.map_cons, List.sum_cons]
      dsimp only
      omega

theorem run_iff (scan : ValueScan) (hnodes : scan.nodes ≤ limits.valueNodes)
    (hbytes : scan.bytes ≤ limits.valueBytes) :
    scan.run limits location = .ok () ↔ Passes limits scan := by
  fun_induction run limits location scan with
  | case1 scan error hstep =>
    refine iff_of_false (fun h => by cases h) fun hpasses => ?_
    cases hpending : scan.pending with
    | nil =>
      rw [step, hpending] at hstep
      cases hstep
    | cons entry pending =>
      obtain ⟨next, hnext, _⟩ := (passes_step hpending).mp hpasses
      cases hstep.symm.trans hnext
  | case2 scan hstep =>
    have hpending := step_none.mp hstep
    refine iff_of_true rfl ⟨?_, ?_, ?_⟩
    · exact fun entry hentry => absurd (hpending ▸ hentry) List.not_mem_nil
    · rw [remaining, hpending]
      exact hnodes
    · rw [hpending]
      exact hbytes
  | case3 scan next hstep ih =>
    obtain ⟨value, depth, pending, hpending, -, hprojected, hbyte, hnext⟩ := step_some.mp hstep
    have hpasses : Passes limits scan ↔ ∃ next, scan.step limits location = .ok (some next) ∧
        Passes limits next := passes_step hpending
    rw [hpasses, ih (by rw [hnext]; dsimp only; omega) (by rw [hnext]; exact hbyte)]
    constructor
    · exact fun h => ⟨next, hstep, h⟩
    · rintro ⟨other, hother, h⟩
      obtain rfl := Option.some.inj (Except.ok.inj (hstep.symm.trans hother))
      exact h

/-- A value passes exactly if it fits. -/
theorem run_start (value : Value) :
    (start value).run limits location = .ok () ↔ ValueFits limits value := by
  rw [run_iff _ (Nat.zero_le _) (Nat.zero_le _)]
  constructor
  · rintro ⟨hdepth, hnodes, hbytes⟩
    have hnodes : 0 + (value.nodeCount + 0) ≤ limits.valueNodes := hnodes
    have hbytes : 0 + (value.extensionTotal + 0) ≤ limits.valueBytes := hbytes
    exact ⟨hdepth (value, 1) List.mem_cons_self, by omega, by omega⟩
  · rintro ⟨hdepth, hnodes, hbytes⟩
    refine ⟨fun entry hentry => List.mem_singleton.mp hentry ▸ hdepth, ?_, ?_⟩
    · show 0 + (value.nodeCount + 0) ≤ limits.valueNodes
      omega
    · show 0 + (value.extensionTotal + 0) ≤ limits.valueBytes
      omega

/-- The scans the loop goes through from a value. -/
def Reachable (limits : ExtensionLimits) (location : Pointer) (value : Value) :
    ValueScan → Prop :=
  Relation.ReflTransGen (fun scan next => scan.step limits location = .ok (some next))
    (start value)

/-- What a step leaves pending was projected, and within the limit. -/
theorem pending_length_step {scan next : ValueScan}
    (h : scan.step limits location = .ok (some next)) :
    next.pending.length ≤ limits.valueNodes := by
  obtain ⟨value, depth, pending, -, -, hprojected, -, rfl⟩ := step_some.mp h
  dsimp only
  rw [List.length_append, List.length_reverse, List.length_map]
  omega

/-- The value alone is pending at the start, also when no node at all is allowed. -/
theorem pending_length {value : Value} {scan : ValueScan}
    (h : Reachable limits location value scan) :
    scan.pending.length ≤ limits.valueNodes ∨ limits.valueNodes = 0 ∧ scan = start value := by
  induction h with
  | refl =>
    rcases Nat.eq_zero_or_pos limits.valueNodes with hzero | hpos
    · exact .inr ⟨hzero, rfl⟩
    · exact .inl hpos
  | tail _ hstep _ => exact .inl (pending_length_step hstep)

end ValueScan

end Schemaform.Ui.V1
