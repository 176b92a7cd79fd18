import Schemaform.Form.UserSpec
import Schemaform.Json.Preserve
import Schemaform.Json.Size

/-!
# Form.Scan

What the scan of a value checks.

* `Fits`: depth, lengths and scalars, place by place.
* `checkInputValue_iff`: the scan passes exactly the values that fit within the totals.
* `NoLarger`: values that pass whenever another one does, with `noLarger_modify` for edits.
* `fits_preserve`: a respelled candidate.
-/

namespace Schemaform

/-- What is checked of a value by itself. -/
def Enters (limits : InputLimits) (depth : Nat) (value : Value) : Prop :=
  depth ≤ limits.depth ∧
  match value with
  | .array items => items.length ≤ limits.collectionLength
  | .object members => members.length ≤ limits.collectionLength
  | value => value.scalarBytes ≤ limits.scalarBytes

mutual

/-- Depth, lengths, scalars and keys, here and below. -/
def Fits (limits : InputLimits) (depth : Nat) : Value → Prop
  | .array items => Enters limits depth (.array items) ∧ FitsItems limits (depth + 1) items
  | .object members => Enters limits depth (.object members) ∧ FitsMembers limits (depth + 1) members
  | value => Enters limits depth value

def FitsItems (limits : InputLimits) (depth : Nat) : List Value → Prop
  | [] => True
  | v :: vs => Fits limits depth v ∧ FitsItems limits depth vs

def FitsMembers (limits : InputLimits) (depth : Nat) : List (String × Value) → Prop
  | [] => True
  | (key, v) :: vs => (key.utf8ByteSize ≤ limits.scalarBytes ∧ Fits limits depth v) ∧
    FitsMembers limits depth vs

end

variable {limits : InputLimits} {depth : Nat}

theorem fitsItems_iff {items : List Value} :
    FitsItems limits depth items ↔ ∀ v ∈ items, Fits limits depth v := by
  induction items with
  | nil => simp [FitsItems]
  | cons v vs ih => rw [FitsItems, ih, List.forall_mem_cons]

theorem fitsMembers_iff {members : List (String × Value)} : FitsMembers limits depth members ↔
    ∀ e ∈ members, e.1.utf8ByteSize ≤ limits.scalarBytes ∧ Fits limits depth e.2 := by
  induction members with
  | nil => simp [FitsMembers]
  | cons e vs ih => rw [FitsMembers, ih, List.forall_mem_cons]

theorem fits_array {items : List Value} : Fits limits depth (.array items) ↔
    (depth ≤ limits.depth ∧ items.length ≤ limits.collectionLength) ∧
      ∀ v ∈ items, Fits limits (depth + 1) v := by
  rw [Fits, fitsItems_iff]
  rfl

theorem fits_object {members : List (String × Value)} : Fits limits depth (.object members) ↔
    (depth ≤ limits.depth ∧ members.length ≤ limits.collectionLength) ∧
      ∀ e ∈ members, e.1.utf8ByteSize ≤ limits.scalarBytes ∧ Fits limits (depth + 1) e.2 := by
  rw [Fits, fitsMembers_iff]
  rfl

/-! ## The scan -/

theorem checkBound_eq_ok {dimension : String} {maximum observed : Nat} {pointer : Pointer}
    {u : Unit} : checkBound dimension maximum observed pointer = .ok u ↔ observed ≤ maximum := by
  unfold checkBound
  split
  · simp
    omega
  · simp
    omega

/-- The totals once a value is scanned, within the limits. -/
def Reaches (limits : InputLimits) (metrics : InputMetrics) (nodes members : Nat)
    (metrics' : InputMetrics) : Prop :=
  metrics' = ⟨metrics.nodes + nodes, metrics.members + members⟩ ∧
  metrics'.nodes ≤ limits.nodes ∧ metrics'.members ≤ limits.members

theorem Reaches.comp {m m' : InputMetrics} {a b c d : Nat} :
    (∃ middle, Reaches limits m a b middle ∧ Reaches limits middle c d m') ↔
      Reaches limits m (a + c) (b + d) m' := by
  constructor
  · rintro ⟨middle, ⟨rfl, _, _⟩, rfl, hn, hm⟩
    exact ⟨by simp only [Nat.add_assoc], hn, hm⟩
  · rintro ⟨rfl, hn, hm⟩
    dsimp only at hn hm
    refine ⟨_, ⟨rfl, ?_, ?_⟩, by simp only [Nat.add_assoc], hn, hm⟩
    · show m.nodes + a ≤ limits.nodes
      omega
    · show m.members + b ≤ limits.members
      omega

theorem enterValue_iff {pointer : Pointer} {metrics metrics' : InputMetrics} {value : Value}
    (hmembers : metrics.members ≤ limits.members) :
    enterValue limits depth pointer metrics value = .ok metrics' ↔
      Enters limits depth value ∧ Reaches limits metrics 1 value.width metrics' := by
  unfold enterValue Enters Reaches
  cases value <;>
    simp only [bind_eq_ok, checkBound_eq_ok, pure, Except.pure, Except.ok.injEq, exists_and_left,
      exists_const, Value.width, Value.scalarBytes, Nat.add_zero]
  all_goals
    constructor
    · rintro ⟨hd, hn, h⟩
      grind
    · rintro ⟨⟨hd, hl⟩, rfl, hn, hm⟩
      grind

theorem scanItems_iff {items : List Value}
    (ih : ∀ v ∈ items, ∀ (pointer : Pointer) (metrics metrics' : InputMetrics),
      metrics.members ≤ limits.members →
      (scanValue limits (depth + 1) pointer metrics v = .ok metrics' ↔
        Fits limits (depth + 1) v ∧ Reaches limits metrics v.nodeCount v.memberCount metrics'))
    {pointer : Pointer} {index : Nat} {metrics metrics' : InputMetrics}
    (hnodes : metrics.nodes ≤ limits.nodes) (hmembers : metrics.members ≤ limits.members) :
    scanItems limits depth pointer index metrics items = .ok metrics' ↔
      (∀ v ∈ items, Fits limits (depth + 1) v) ∧
      Reaches limits metrics (items.map Value.nodeCount).sum (items.map Value.memberCount).sum
        metrics' := by
  induction items generalizing index metrics with
  | nil =>
    simp only [scanItems, pure, Except.pure, Except.ok.injEq, Reaches, List.map_nil, List.sum_nil,
      Nat.add_zero, List.not_mem_nil, false_implies, implies_true, true_and]
    constructor
    · rintro rfl
      exact ⟨rfl, hnodes, hmembers⟩
    · rintro ⟨rfl, _⟩
      rfl
  | cons v vs ihv =>
    rw [List.forall_mem_cons] at ih
    rw [scanItems, bind_eq_ok, List.forall_mem_cons, List.map_cons, List.map_cons, List.sum_cons,
      List.sum_cons, ← Reaches.comp]
    constructor
    · rintro ⟨middle, hscan, hrest⟩
      obtain ⟨hfits, hreaches⟩ := (ih.1 _ _ _ hmembers).mp hscan
      obtain ⟨hfits', hreaches'⟩ := (ihv ih.2 hreaches.2.1 hreaches.2.2).mp hrest
      exact ⟨⟨hfits, hfits'⟩, middle, hreaches, hreaches'⟩
    · rintro ⟨⟨hfits, hfits'⟩, middle, hreaches, hreaches'⟩
      exact ⟨middle, (ih.1 _ _ _ hmembers).mpr ⟨hfits, hreaches⟩,
        (ihv ih.2 hreaches.2.1 hreaches.2.2).mpr ⟨hfits', hreaches'⟩⟩

theorem scanMembers_iff {members : List (String × Value)}
    (ih : ∀ e ∈ members, ∀ (pointer : Pointer) (metrics metrics' : InputMetrics),
      metrics.members ≤ limits.members →
      (scanValue limits (depth + 1) pointer metrics e.2 = .ok metrics' ↔
        Fits limits (depth + 1) e.2 ∧
        Reaches limits metrics e.2.nodeCount e.2.memberCount metrics'))
    {pointer : Pointer} {metrics metrics' : InputMetrics}
    (hnodes : metrics.nodes ≤ limits.nodes) (hmembers : metrics.members ≤ limits.members) :
    scanMembers limits depth pointer metrics members = .ok metrics' ↔
      (∀ e ∈ members, e.1.utf8ByteSize ≤ limits.scalarBytes ∧ Fits limits (depth + 1) e.2) ∧
      Reaches limits metrics (members.map fun e => e.2.nodeCount).sum
        (members.map fun e => e.2.memberCount).sum metrics' := by
  induction members generalizing metrics with
  | nil =>
    simp only [scanMembers, pure, Except.pure, Except.ok.injEq, Reaches, List.map_nil,
      List.sum_nil, Nat.add_zero, List.not_mem_nil, false_implies, implies_true, true_and]
    constructor
    · rintro rfl
      exact ⟨rfl, hnodes, hmembers⟩
    · rintro ⟨rfl, _⟩
      rfl
  | cons e vs ihv =>
    obtain ⟨key, v⟩ := e
    rw [List.forall_mem_cons] at ih
    rw [scanMembers, bind_eq_ok, List.forall_mem_cons, List.map_cons, List.map_cons, List.sum_cons,
      List.sum_cons, ← Reaches.comp]
    simp only [bind_eq_ok, checkBound_eq_ok, exists_const]
    constructor
    · rintro ⟨hkey, middle, hscan, hrest⟩
      obtain ⟨hfits, hreaches⟩ := (ih.1 _ _ _ hmembers).mp hscan
      obtain ⟨hfits', hreaches'⟩ := (ihv ih.2 hreaches.2.1 hreaches.2.2).mp hrest
      exact ⟨⟨⟨hkey, hfits⟩, hfits'⟩, middle, hreaches, hreaches'⟩
    · rintro ⟨⟨⟨hkey, hfits⟩, hfits'⟩, middle, hreaches, hreaches'⟩
      exact ⟨hkey, middle, (ih.1 _ _ _ hmembers).mpr ⟨hfits, hreaches⟩,
        (ihv ih.2 hreaches.2.1 hreaches.2.2).mpr ⟨hfits', hreaches'⟩⟩

/-- The scan passes what fits, as long as the totals do. -/
theorem scanValue_iff (value : Value) : ∀ (depth : Nat) (pointer : Pointer)
    (metrics metrics' : InputMetrics), metrics.members ≤ limits.members →
    (scanValue limits depth pointer metrics value = .ok metrics' ↔
      Fits limits depth value ∧
      Reaches limits metrics value.nodeCount value.memberCount metrics') := by
  induction value using Value.induct with
  | array items ih =>
    intro depth pointer metrics metrics' hmembers
    have ih (v : Value) (hv : v ∈ items) := ih v hv (depth + 1)
    rw [scanValue, bind_eq_ok, Value.nodeCount_array, Value.memberCount_array, ← Reaches.comp,
      Fits, fitsItems_iff]
    constructor
    · rintro ⟨middle, henter, hscan⟩
      obtain ⟨henters, hreaches⟩ := (enterValue_iff hmembers).mp henter
      obtain ⟨hfits, hreaches'⟩ := (scanItems_iff ih hreaches.2.1 hreaches.2.2).mp hscan
      exact ⟨⟨henters, hfits⟩, middle, hreaches, hreaches'⟩
    · rintro ⟨⟨henters, hfits⟩, middle, hreaches, hreaches'⟩
      exact ⟨middle, (enterValue_iff hmembers).mpr ⟨henters, hreaches⟩,
        (scanItems_iff ih hreaches.2.1 hreaches.2.2).mpr ⟨hfits, hreaches'⟩⟩
  | object members ih =>
    intro depth pointer metrics metrics' hmembers
    have ih (e : String × Value) (he : e ∈ members) := ih e he (depth + 1)
    rw [scanValue, bind_eq_ok, Value.nodeCount_object, Value.memberCount_object, ← Reaches.comp,
      Fits, fitsMembers_iff]
    constructor
    · rintro ⟨middle, henter, hscan⟩
      obtain ⟨henters, hreaches⟩ := (enterValue_iff hmembers).mp henter
      obtain ⟨hfits, hreaches'⟩ := (scanMembers_iff ih hreaches.2.1 hreaches.2.2).mp hscan
      exact ⟨⟨henters, hfits⟩, middle, hreaches, hreaches'⟩
    · rintro ⟨⟨henters, hfits⟩, middle, hreaches, hreaches'⟩
      exact ⟨middle, (enterValue_iff hmembers).mpr ⟨henters, hreaches⟩,
        (scanMembers_iff ih hreaches.2.1 hreaches.2.2).mpr ⟨hfits, hreaches'⟩⟩
  | _ =>
    intro depth pointer metrics metrics' hmembers
    unfold scanValue Fits
    exact enterValue_iff hmembers

/-- A value within the limits. -/
structure Admitted (limits : InputLimits) (value : Value) : Prop where
  fits : Fits limits 0 value
  nodes : value.nodeCount ≤ limits.nodes
  members : value.memberCount ≤ limits.members

theorem checkInputValue_iff {value : Value} :
    checkInputValue value limits = .ok () ↔ Admitted limits value := by
  unfold checkInputValue
  rw [bind_eq_ok]
  constructor
  · rintro ⟨metrics', hscan, _⟩
    obtain ⟨hfits, rfl, hnodes, hmembers⟩ := (scanValue_iff value _ _ _ _ (Nat.zero_le _)).mp hscan
    dsimp only at hnodes hmembers
    rw [Nat.zero_add] at hnodes hmembers
    exact ⟨hfits, hnodes, hmembers⟩
  · intro h
    refine ⟨_, (scanValue_iff value _ _ _ _ (Nat.zero_le _)).mpr ⟨h.fits, rfl, ?_, ?_⟩, rfl⟩
    · dsimp only
      rw [Nat.zero_add]
      exact h.nodes
    · dsimp only
      rw [Nat.zero_add]
      exact h.members

/-! ## Values no larger -/

/-- Passes wherever the other value does. -/
structure NoLarger (w v : Value) : Prop where
  nodes : w.nodeCount ≤ v.nodeCount
  members : w.memberCount ≤ v.memberCount
  fits : ∀ limits depth, Fits limits depth v → Fits limits depth w

theorem Admitted.of_noLarger {v w : Value} (h : Admitted limits v) (hw : NoLarger w v) :
    Admitted limits w where
  fits := hw.fits limits 0 h.fits
  nodes := hw.nodes.trans h.nodes
  members := hw.members.trans h.members

theorem sum_le_of_subperm {α : Type} (f : α → Nat) {l m : List α} (h : l.Subperm m) :
    (l.map f).sum ≤ (m.map f).sum := by
  obtain ⟨middle, hperm, hsub⟩ := h
  rw [← (hperm.map f).sum_eq]
  exact (hsub.map f).sum_le_sum fun _ _ => Nat.zero_le _

/-- Some of the items, in any order. -/
theorem noLarger_array {items items' : List Value} (h : items'.Subperm items) :
    NoLarger (.array items') (.array items) := by
  constructor
  · rw [Value.nodeCount_array, Value.nodeCount_array]
    exact Nat.add_le_add_left (sum_le_of_subperm _ h) 1
  · rw [Value.memberCount_array, Value.memberCount_array]
    exact Nat.add_le_add_left (sum_le_of_subperm _ h) 0
  · intro limits depth hfits
    obtain ⟨⟨hdepth, hlength⟩, hall⟩ := fits_array.mp hfits
    exact fits_array.mpr ⟨⟨hdepth, h.length_le.trans hlength⟩, fun v hv => hall v (h.subset hv)⟩

theorem NoLarger.refl (v : Value) : NoLarger v v := ⟨le_rfl, le_rfl, fun _ _ h => h⟩

theorem sum_le_of_forall₂ {α : Type} {R : α → α → Prop} (f : α → Nat)
    (hR : ∀ a b, R a b → f b ≤ f a) {l m : List α} (h : List.Forall₂ R l m) :
    (m.map f).sum ≤ (l.map f).sum := by
  induction h with
  | nil => exact le_rfl
  | cons hab _ ih =>
    have hhead := hR _ _ hab
    simp only [List.map_cons, List.sum_cons]
    omega

theorem noLarger_items {items items' : List Value}
    (h : List.Forall₂ (fun v w => NoLarger w v) items items') :
    NoLarger (.array items') (.array items) := by
  constructor
  · rw [Value.nodeCount_array, Value.nodeCount_array]
    exact Nat.add_le_add_left (sum_le_of_forall₂ _ (fun _ _ hvw => hvw.nodes) h) 1
  · rw [Value.memberCount_array, Value.memberCount_array]
    exact Nat.add_le_add_left (sum_le_of_forall₂ _ (fun _ _ hvw => hvw.members) h) 0
  · intro limits depth hfits
    obtain ⟨⟨hdepth, hlength⟩, hall⟩ := fits_array.mp hfits
    refine fits_array.mpr ⟨⟨hdepth, h.length_eq ▸ hlength⟩, fun w hw => ?_⟩
    obtain ⟨k, hk⟩ := List.mem_iff_getElem?.mp hw
    have hrel := ListEdit.forall₂_getElem? h k
    rw [hk] at hrel
    cases hv : items[k]? with
    | none =>
      rw [hv] at hrel
      cases hrel
    | some v =>
      rw [hv] at hrel
      cases hrel with
      | some hvw => exact hvw.fits _ _ (hall v (List.mem_of_getElem? hv))

theorem noLarger_members {members members' : List (String × Value)}
    (h : List.Forall₂ (fun d e => d.1 = e.1 ∧ NoLarger e.2 d.2) members members') :
    NoLarger (.object members') (.object members) := by
  constructor
  · rw [Value.nodeCount_object, Value.nodeCount_object]
    exact Nat.add_le_add_left (sum_le_of_forall₂ _ (fun _ _ hde => hde.2.nodes) h) 1
  · rw [Value.memberCount_object, Value.memberCount_object, h.length_eq]
    exact Nat.add_le_add_left (sum_le_of_forall₂ _ (fun _ _ hde => hde.2.members) h) _
  · intro limits depth hfits
    obtain ⟨⟨hdepth, hlength⟩, hall⟩ := fits_object.mp hfits
    refine fits_object.mpr ⟨⟨hdepth, h.length_eq ▸ hlength⟩, fun e he => ?_⟩
    obtain ⟨k, hk⟩ := List.mem_iff_getElem?.mp he
    have hrel := ListEdit.forall₂_getElem? h k
    rw [hk] at hrel
    cases hd : members[k]? with
    | none =>
      rw [hd] at hrel
      cases hrel
    | some d =>
      rw [hd] at hrel
      cases hrel with
      | some hde =>
        obtain ⟨hkey, hvalue⟩ := hall d (List.mem_of_getElem? hd)
        exact ⟨hde.1 ▸ hkey, hde.2.fits _ _ hvalue⟩

theorem forall₂_set_same {α : Type} {R : α → α → Prop} (hrefl : ∀ a, R a a) {l : List α} {i : Nat}
    {a b : α} (hi : l[i]? = some a) (hab : R a b) : List.Forall₂ R l (l.set i b) := by
  have hset := ListEdit.forall₂_set (List.forall₂_same.mpr fun a (_ : a ∈ l) => hrefl a) i hab
  obtain ⟨hlt, rfl⟩ := List.getElem?_eq_some_iff.mp hi
  rwa [List.set_getElem_self] at hset

theorem noLarger_setChild {v c c' : Value} {token : String} (hc : v.child token = some c)
    (h : NoLarger c' c) : NoLarger (v.setChild token c') v := by
  cases v with
  | object members => exact noLarger_members (SortedMap.forall₂_set (P := fun a b => NoLarger b a)
    NoLarger.refl hc h)
  | array items =>
    simp only [Value.child, Option.bind_eq_some_iff] at hc
    obtain ⟨i, hi, hc⟩ := hc
    simp only [Value.setChild, hi]
    exact noLarger_items (forall₂_set_same (R := fun a b => NoLarger b a) NoLarger.refl hc h)
  | _ => cases hc

theorem noLarger_modify {f : Value → Option Value} {p : Pointer} {v w : Value}
    (hf : ∀ c c', p.resolve v = some c → f c = some c' → NoLarger c' c)
    (h : p.modify f v = some w) : NoLarger w v := by
  induction p generalizing v w with
  | nil => exact hf v w rfl h
  | cons t p ih =>
    obtain ⟨c, c', hc, hm, rfl⟩ := Pointer.modify_cons_eq_some h
    refine noLarger_setChild hc (ih (fun d d' hd hfd => hf d d' ?_ hfd) hm)
    rw [Pointer.resolve_cons, hc]
    exact hd

/-! ## Respelled values -/

theorem sum_congr_of_forall₂ {α : Type} {R : α → α → Prop} (f : α → Nat) {l m : List α}
    (h : List.Forall₂ R l m) (hR : ∀ a ∈ l, ∀ b ∈ m, R a b → f a = f b) :
    (l.map f).sum = (m.map f).sum := by
  induction h with
  | nil => rfl
  | cons hab _ ih =>
    have hhead := hR _ List.mem_cons_self _ List.mem_cons_self hab
    have htail := ih fun a ha b hb => hR a (List.mem_cons_of_mem _ ha) b (List.mem_cons_of_mem _ hb)
    simp only [List.map_cons, List.sum_cons]
    omega

/-- Equal values have the same shape, so the same totals. -/
theorem counts_congr {a b : Value} (ha : a.WF) (hb : b.WF) (h : jsonValuesEqual a b = true) :
    a.nodeCount = b.nodeCount ∧ a.memberCount = b.memberCount := by
  induction a using Value.induct generalizing b with
  | array items ih =>
    obtain ⟨items', rfl⟩ := jsonValuesEqual_array_left h
    have hall := jsonValuesEqual_array.mp h
    have hcounts (v : Value) (hv : v ∈ items) (w : Value) (hw : w ∈ items')
        (heq : jsonValuesEqual v w = true) :=
      ih v hv (Value.wf_array.mp ha v hv) (Value.wf_array.mp hb w hw) heq
    rw [Value.nodeCount_array, Value.nodeCount_array, Value.memberCount_array,
      Value.memberCount_array,
      sum_congr_of_forall₂ _ hall fun v hv w hw heq => (hcounts v hv w hw heq).1,
      sum_congr_of_forall₂ _ hall fun v hv w hw heq => (hcounts v hv w hw heq).2]
    exact ⟨rfl, rfl⟩
  | object members ih =>
    obtain ⟨members', rfl⟩ := jsonValuesEqual_object_left h
    obtain ⟨hsorted, hwf⟩ := Value.wf_object.mp ha
    obtain ⟨hsorted', hwf'⟩ := Value.wf_object.mp hb
    have hall := (jsonValuesEqual_object hsorted hsorted').mp h
    have hcounts (d : String × Value) (hd : d ∈ members) (e : String × Value) (he : e ∈ members')
        (heq : d.1 = e.1 ∧ jsonValuesEqual d.2 e.2 = true) :=
      ih d hd (hwf d hd) (hwf' e he) heq.2
    rw [Value.nodeCount_object, Value.nodeCount_object, Value.memberCount_object,
      Value.memberCount_object, hall.length_eq,
      sum_congr_of_forall₂ _ hall fun d hd e he heq => (hcounts d hd e he heq).1,
      sum_congr_of_forall₂ _ hall fun d hd e he heq => (hcounts d hd e he heq).2]
    exact ⟨rfl, rfl⟩
  | number l =>
    obtain ⟨r, rfl⟩ := jsonValuesEqual_number_left h
    exact ⟨rfl, rfl⟩
  | _ =>
    cases b with
    | null => exact ⟨rfl, rfl⟩
    | bool _ => exact ⟨rfl, rfl⟩
    | number _ => exact ⟨rfl, rfl⟩
    | string _ => exact ⟨rfl, rfl⟩
    | _ => simp [jsonValuesEqual_iff] at h

theorem fits_set {members : List (String × Value)} {key : String} {v : Value}
    (h : Fits limits depth (.object members)) (hv : Fits limits (depth + 1) v) :
    Fits limits depth (.object (SortedMap.set key v members)) := by
  have hkeys := SortedMap.map_fst_set key v members
  obtain ⟨⟨hdepth, hlength⟩, hall⟩ := fits_object.mp h
  refine fits_object.mpr ⟨⟨hdepth, ?_⟩, fun e he => ⟨?_, ?_⟩⟩
  · have hlen := congrArg List.length hkeys
    rw [List.length_map, List.length_map] at hlen
    omega
  · have hmem : e.1 ∈ members.map Prod.fst := hkeys ▸ List.mem_map_of_mem he
    obtain ⟨d, hd, heq⟩ := List.mem_map.mp hmem
    exact heq ▸ (hall d hd).1
  · rcases SortedMap.mem_set he with heq | hmem
    · exact heq ▸ hv
    · exact (hall e hmem).2

theorem fits_preserveItems {cs ds : List Value}
    (ih : ∀ c ∈ cs, ∀ d : Value, Fits limits depth c → Fits limits depth d →
      Fits limits depth (preserveSemanticallyEqualValues c d))
    (hcs : ∀ c ∈ cs, Fits limits depth c) (hds : ∀ d ∈ ds, Fits limits depth d) :
    (preserveItems cs ds).length = ds.length ∧ ∀ v ∈ preserveItems cs ds, Fits limits depth v := by
  induction cs generalizing ds with
  | nil => cases ds <;> exact ⟨rfl, hds⟩
  | cons c cs ihc =>
    cases ds with
    | nil => exact ⟨rfl, hds⟩
    | cons d ds =>
      rw [List.forall_mem_cons] at ih hcs hds
      obtain ⟨hlen, hrest⟩ := ihc ih.2 hcs.2 hds.2
      refine ⟨congrArg (· + 1) hlen, ?_⟩
      rw [preserveItems, List.forall_mem_cons]
      exact ⟨ih.1 d hcs.1 hds.1, hrest⟩

theorem fits_preserveMembers {cs ds : List (String × Value)}
    (ih : ∀ c ∈ cs, ∀ d : Value, Fits limits (depth + 1) c.2 → Fits limits (depth + 1) d →
      Fits limits (depth + 1) (preserveSemanticallyEqualValues c.2 d))
    (hcs : ∀ c ∈ cs, Fits limits (depth + 1) c.2) (hds : Fits limits depth (.object ds)) :
    Fits limits depth (.object (preserveMembers cs ds)) := by
  induction cs generalizing ds with
  | nil => exact hds
  | cons c cs ihc =>
    obtain ⟨key, current⟩ := c
    rw [List.forall_mem_cons] at ih hcs
    simp only [preserveMembers]
    refine ihc ih.2 hcs.2 ?_
    split
    · rename_i v hv
      have hfits := ((fits_object.mp hds).2 _ (SortedMap.mem_of_get hv)).2
      exact fits_set hds (ih.1 v hcs.1 hfits)
    · exact hds

/-- What is kept fits where it was, and it stays where it was. -/
theorem fits_preserve {current candidate : Value} (hc : Fits limits depth current)
    (hd : Fits limits depth candidate) :
    Fits limits depth (preserveSemanticallyEqualValues current candidate) := by
  induction current using Value.induct generalizing candidate depth with
  | array cs ih =>
    unfold preserveSemanticallyEqualValues
    split
    · exact hc
    · cases candidate with
      | array ds =>
        obtain ⟨hdepth, hlength⟩ := (fits_array.mp hd).1
        obtain ⟨hlen, hall⟩ := fits_preserveItems (fun c hmem d => ih c hmem)
          (fits_array.mp hc).2 (fits_array.mp hd).2
        exact fits_array.mpr ⟨⟨hdepth, hlen ▸ hlength⟩, hall⟩
      | _ => exact hd
  | object cs ih =>
    unfold preserveSemanticallyEqualValues
    split
    · exact hc
    · cases candidate with
      | object ds =>
        exact fits_preserveMembers (fun c hmem d => ih c hmem)
          (fun c hmem => ((fits_object.mp hc).2 c hmem).2) hd
      | _ => exact hd
  | _ =>
    unfold preserveSemanticallyEqualValues
    split
    · exact hc
    · exact hd

theorem admitted_preserve {current candidate : Value} (hc : Admitted limits current)
    (hd : Admitted limits candidate) (hcwf : current.WF) (hdwf : candidate.WF) :
    Admitted limits (preserveSemanticallyEqualValues current candidate) := by
  obtain ⟨hwf, heq⟩ := preserve_respells hcwf hdwf
  obtain ⟨hnodes, hmembers⟩ := counts_congr hdwf hwf heq
  exact ⟨fits_preserve hc.fits hd.fits, hnodes ▸ hd.nodes, hmembers ▸ hd.members⟩

end Schemaform
