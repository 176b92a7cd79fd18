import Schemaform.Form.Scan
import Schemaform.Source.Counts

/-!
# Source.Bounds

A document that passes the scan of its bytes passes the scan of its value.

* `tightest`: the limits a value needs, `checkInputValue_iff_within`.
* `value_noLarger`: members that replace each other only make a value smaller.
* `metricsFrom_measures`: what a walk has counted when it ends and when it is broken off.
* `source_scan_dominates`.
-/

namespace Schemaform.Source

/-! ## The limits a value needs -/

def Within (needed limits : InputLimits) : Prop :=
  needed.depth ≤ limits.depth ∧ needed.nodes ≤ limits.nodes ∧
  needed.members ≤ limits.members ∧ needed.collectionLength ≤ limits.collectionLength ∧
  needed.scalarBytes ≤ limits.scalarBytes

def tightest (value : Value) : InputLimits where
  depth := value.height
  nodes := value.nodeCount
  members := value.memberCount
  collectionLength := value.longestCollection
  scalarBytes := value.longestScalar

/-- What the two scans measure together, where neither panics. -/
def sourceMeasures (bytes : List UInt8) : Option InputLimits :=
  (sourceValueMetrics bytes).map fun metrics =>
    { depth := (sourceMetrics bytes).2
      nodes := metrics.nodes
      members := metrics.members
      collectionLength := metrics.collectionLength
      scalarBytes := metrics.scalarBytes }

section Needs

variable {limits : InputLimits} {depth : Nat}

theorem add_height_array {bound : Nat} {items : List Value} :
    depth + (Value.array items).height ≤ bound ↔
      depth ≤ bound ∧ ∀ v ∈ items, depth + 1 + v.height ≤ bound := by
  have hle : Value.heightItems items ≤ bound - depth ↔
      ∀ v ∈ items, v.height + 1 ≤ bound - depth := Value.heightItems_le
  rw [Value.height]
  constructor
  · intro h
    refine ⟨by omega, fun v hv => ?_⟩
    have hitem := hle.mp (by omega) v hv
    omega
  · rintro ⟨hdepth, hall⟩
    have hitems := hle.mpr fun v hv => by
      have := hall v hv
      omega
    omega

theorem add_height_object {bound : Nat} {members : List (String × Value)} :
    depth + (Value.object members).height ≤ bound ↔
      depth ≤ bound ∧ ∀ e ∈ members, depth + 1 + e.2.height ≤ bound := by
  have hle : Value.heightMembers members ≤ bound - depth ↔
      ∀ e ∈ members, e.2.height + 1 ≤ bound - depth := Value.heightMembers_le
  rw [Value.height]
  constructor
  · intro h
    refine ⟨by omega, fun e he => ?_⟩
    have hmember := hle.mp (by omega) e he
    omega
  · rintro ⟨hdepth, hall⟩
    have hmembers := hle.mpr fun e he => by
      have := hall e he
      omega
    omega

theorem fits_iff_measures (v : Value) : ∀ depth, Fits limits depth v ↔
    depth + v.height ≤ limits.depth ∧ v.longestCollection ≤ limits.collectionLength ∧
      v.longestScalar ≤ limits.scalarBytes := by
  induction v using Value.induct with
  | array items ih =>
    intro depth
    have hitems : (∀ v ∈ items, Fits limits (depth + 1) v) ↔ ∀ v ∈ items,
        depth + 1 + v.height ≤ limits.depth ∧ v.longestCollection ≤ limits.collectionLength ∧
          v.longestScalar ≤ limits.scalarBytes := forall₂_congr fun v hv => ih v hv (depth + 1)
    rw [fits_array, hitems, add_height_array, Value.longestCollection, Value.longestScalar,
      Value.peak, Value.peak, max_le_iff, max_le_iff, Value.peakItems_le, Value.peakItems_le]
    constructor
    · rintro ⟨⟨hdepth, hlength⟩, hall⟩
      exact ⟨⟨hdepth, fun v hv => (hall v hv).1⟩, ⟨hlength, fun v hv => (hall v hv).2.1⟩,
        Nat.zero_le _, fun v hv => (hall v hv).2.2⟩
    · rintro ⟨⟨hdepth, hheight⟩, ⟨hlength, hcollection⟩, _, hscalar⟩
      exact ⟨⟨hdepth, hlength⟩, fun v hv => ⟨hheight v hv, hcollection v hv, hscalar v hv⟩⟩
  | object members ih =>
    intro depth
    have hmembers : (∀ e ∈ members, e.1.utf8ByteSize ≤ limits.scalarBytes ∧
          Fits limits (depth + 1) e.2) ↔ ∀ e ∈ members, e.1.utf8ByteSize ≤ limits.scalarBytes ∧
        depth + 1 + e.2.height ≤ limits.depth ∧
          e.2.longestCollection ≤ limits.collectionLength ∧
            e.2.longestScalar ≤ limits.scalarBytes :=
      forall₂_congr fun e he => and_congr_right fun _ => ih e he (depth + 1)
    rw [fits_object, hmembers, add_height_object, Value.longestCollection, Value.longestScalar,
      Value.peak, Value.peak, max_le_iff, max_le_iff, Value.peakMembers_le, Value.peakMembers_le]
    constructor
    · rintro ⟨⟨hdepth, hlength⟩, hall⟩
      exact ⟨⟨hdepth, fun e he => (hall e he).2.1⟩,
        ⟨hlength, fun e he => ⟨Nat.zero_le _, (hall e he).2.2.1⟩⟩,
        Nat.zero_le _, fun e he => ⟨(hall e he).1, (hall e he).2.2.2⟩⟩
    · rintro ⟨⟨hdepth, hheight⟩, ⟨hlength, hcollection⟩, _, hscalar⟩
      exact ⟨⟨hdepth, hlength⟩, fun e he =>
        ⟨(hscalar e he).1, hheight e he, (hcollection e he).2, (hscalar e he).2⟩⟩
  | _ =>
    intro depth
    simp [Fits, Enters, Value.height, Value.longestCollection, Value.longestScalar, Value.peak,
      Value.collectionLength]

theorem checkInputValue_iff_within {value : Value} :
    checkInputValue value limits = .ok () ↔ Within (tightest value) limits := by
  rw [checkInputValue_iff]
  constructor
  · rintro ⟨hfits, hnodes, hmembers⟩
    obtain ⟨hdepth, hcollection, hscalar⟩ := (fits_iff_measures value 0).mp hfits
    rw [Nat.zero_add] at hdepth
    exact ⟨hdepth, hnodes, hmembers, hcollection, hscalar⟩
  · rintro ⟨hdepth, hnodes, hmembers, hcollection, hscalar⟩
    have hdepth : 0 + value.height ≤ limits.depth := (Nat.zero_add _).symm ▸ hdepth
    exact ⟨(fits_iff_measures value 0).mpr ⟨hdepth, hcollection, hscalar⟩, hnodes, hmembers⟩

end Needs

theorem within_of_noLarger {w v : Value} (h : NoLarger w v) : Within (tightest w) (tightest v) := by
  have hv : Fits (tightest v) 0 v :=
    (fits_iff_measures v 0).mpr ⟨Nat.le_of_eq (Nat.zero_add _), le_rfl, le_rfl⟩
  obtain ⟨hdepth, hcollection, hscalar⟩ := (fits_iff_measures w 0).mp (h.fits _ _ hv)
  rw [Nat.zero_add] at hdepth
  exact ⟨hdepth, h.nodes, h.members, hcollection, hscalar⟩

/-! ## Repeated members -/

theorem noLarger_trans {u v w : Value} (huv : NoLarger u v) (hvw : NoLarger v w) : NoLarger u w where
  nodes := huv.nodes.trans hvw.nodes
  members := huv.members.trans hvw.members
  fits limits depth h := huv.fits limits depth (hvw.fits limits depth h)

/-- Some of the members, in any order. -/
theorem noLarger_object {members members' : List (String × Value)}
    (h : members'.Subperm members) : NoLarger (.object members') (.object members) := by
  constructor
  · rw [Value.nodeCount_object, Value.nodeCount_object]
    exact Nat.add_le_add_left (sum_le_of_subperm _ h) 1
  · rw [Value.memberCount_object, Value.memberCount_object]
    exact Nat.add_le_add h.length_le (sum_le_of_subperm _ h)
  · intro limits depth hfits
    obtain ⟨⟨hdepth, hlength⟩, hall⟩ := fits_object.mp hfits
    exact fits_object.mpr ⟨⟨hdepth, h.length_le.trans hlength⟩, fun e he => hall e (h.subset he)⟩

theorem forall₂_items {R : Value → Value → Prop} {items : List (Item Syntax)}
    (h : ∀ item ∈ items, R item.inner.raw item.inner.value) :
    List.Forall₂ R (rawItems items) (itemValues items) := by
  induction items with
  | nil => exact .nil
  | cons item items ih =>
    obtain ⟨hitem, hitems⟩ := List.forall_mem_cons.mp h
    obtain ⟨before, inner, after⟩ := item
    exact .cons hitem (ih hitems)

theorem forall₂_members {R : Value → Value → Prop} {members : List (Member Syntax)}
    (h : ∀ member ∈ members, R member.item.inner.raw member.item.inner.value) :
    List.Forall₂ (fun d e => d.1 = e.1 ∧ R d.2 e.2) (rawEntries members)
      (memberEntries members) := by
  induction members with
  | nil => exact .nil
  | cons member members ih =>
    obtain ⟨hmember, hmembers⟩ := List.forall_mem_cons.mp h
    obtain ⟨before, key, between, itemBefore, inner, after⟩ := member
    exact .cons ⟨rfl, hmember⟩ (ih hmembers)

theorem value_noLarger (s : Syntax) : NoLarger s.value s.raw := by
  induction s using Syntax.induct with
  | array space items ih => exact noLarger_items (forall₂_items ih)
  | object space members ih =>
    exact noLarger_trans (noLarger_object (SortedMap.ofEntries_subperm _))
      (noLarger_members (forall₂_members (R := fun v w => NoLarger w v) ih))
  | _ => exact NoLarger.refl _

theorem itemsKeysOnce_iff {items : List (Item Syntax)} :
    ItemsKeysOnce items ↔ ∀ item ∈ items, item.inner.KeysOnce := by
  induction items with
  | nil => simp [ItemsKeysOnce]
  | cons item items ih =>
    obtain ⟨before, inner, after⟩ := item
    rw [ItemsKeysOnce, ih, List.forall_mem_cons]
    rfl

theorem membersKeysOnce_iff {members : List (Member Syntax)} :
    MembersKeysOnce members ↔ ∀ member ∈ members, member.item.inner.KeysOnce := by
  induction members with
  | nil => simp [MembersKeysOnce]
  | cons member members ih =>
    obtain ⟨before, key, between, itemBefore, inner, after⟩ := member
    rw [MembersKeysOnce, ih, List.forall_mem_cons]
    rfl

theorem raw_noLarger {s : Syntax} (h : s.KeysOnce) : NoLarger s.raw s.value := by
  induction s using Syntax.induct with
  | array space items ih =>
    have honce := itemsKeysOnce_iff.mp h
    have hall : List.Forall₂ (fun w v => NoLarger w v) (rawItems items) (itemValues items) :=
      forall₂_items fun item hitem => ih item hitem (honce item hitem)
    exact noLarger_items hall.flip
  | object space members ih =>
    obtain ⟨hnodup, hbelow⟩ := h
    have honce := membersKeysOnce_iff.mp hbelow
    have hall := forall₂_members (R := fun w v => NoLarger w v) fun member hmember =>
      ih member hmember (honce member hmember)
    have hflip : List.Forall₂ (fun d e => d.1 = e.1 ∧ NoLarger e.2 d.2) (memberEntries members)
        (rawEntries members) := hall.flip.imp fun _ _ hde => ⟨hde.1.symm, hde.2⟩
    exact noLarger_trans (noLarger_members hflip)
      (noLarger_object (SortedMap.ofEntries_perm hnodup).symm.subperm)
  | _ => exact NoLarger.refl _

/-! ## The walk of a parsed value -/

/-- The counts after a part of the walk. It is broken off only below the limit. -/
def Measures (depthLimit tokens depth : Nat) (metrics : ValueMetrics) :
    Except ValueMetrics ValueMetrics → Prop
  | .ok metrics' =>
    metrics'.tokens = metrics.tokens + tokens ∧ metrics'.depth = max metrics.depth depth
  | .error metrics' => depthLimit < depth ∧
    metrics'.tokens ≤ metrics.tokens + tokens ∧ metrics'.depth ≤ max metrics.depth depth

section Walk

variable {depthLimit : Nat}

theorem Measures.bind {tokens depth tokens' depth' : Nat} {metrics : ValueMetrics}
    {result : Except ValueMetrics ValueMetrics}
    {rest : ValueMetrics → Except ValueMetrics ValueMetrics}
    (h : Measures depthLimit tokens depth metrics result)
    (hrest : ∀ middle, max metrics.depth depth ≤ middle.depth →
      Measures depthLimit tokens' depth' middle (rest middle)) :
    Measures depthLimit (tokens + tokens') (max depth depth') metrics (result >>= rest) := by
  cases result with
  | error broken =>
    obtain ⟨hlimit, htokens, hdepth⟩ := h
    refine ⟨?_, ?_, ?_⟩ <;> omega
  | ok middle =>
    obtain ⟨htokens, hdepth⟩ := h
    have hrest := hrest middle hdepth.ge
    show Measures depthLimit _ _ metrics (rest middle)
    cases hresult : rest middle with
    | error broken =>
      rw [hresult] at hrest
      obtain ⟨hlimit, htokens', hdepth'⟩ := hrest
      refine ⟨?_, ?_, ?_⟩ <;> omega
    | ok metrics' =>
      rw [hresult] at hrest
      obtain ⟨htokens', hdepth'⟩ := hrest
      refine ⟨?_, ?_⟩ <;> omega

theorem recordDepth_depth (metrics : ValueMetrics) (depth : Nat) (pointer : Pointer) :
    (metrics.recordDepth depth pointer).depth = max metrics.depth depth ∧
      (metrics.recordDepth depth pointer).tokens = metrics.tokens := by
  unfold ValueMetrics.recordDepth
  by_cases h : depth > metrics.depth
  · rw [if_pos h]
    exact ⟨(Nat.max_eq_right (Nat.le_of_lt h)).symm, rfl⟩
  · rw [if_neg h]
    exact ⟨(Nat.max_eq_left (Nat.le_of_not_lt h)).symm, rfl⟩

/-- Neither tokens nor depth. -/
def SameCounts (metrics metrics' : ValueMetrics) : Prop :=
  metrics'.tokens = metrics.tokens ∧ metrics'.depth = metrics.depth

theorem recordScalar_same (metrics : ValueMetrics) (bytes : Nat) (pointer : Pointer) :
    SameCounts metrics (metrics.recordScalar bytes pointer) := by
  unfold ValueMetrics.recordScalar
  split <;> exact ⟨rfl, rfl⟩

theorem recordPointer_same (metrics : ValueMetrics) (pointer : Pointer) :
    SameCounts metrics (metrics.recordPointer pointer) := by
  unfold ValueMetrics.recordPointer
  split <;> exact ⟨rfl, rfl⟩

theorem recordMembers_same (metrics : ValueMetrics) (length : Nat) (pointer : Pointer) :
    SameCounts metrics (metrics.recordMembers length pointer) := by
  unfold ValueMetrics.recordMembers
  split <;> exact ⟨rfl, rfl⟩

theorem enterMetrics_measures (depth : Nat) (pointer : Pointer) (metrics : ValueMetrics)
    (value : Value) : Measures depthLimit (1 + value.width) depth metrics
      (enterMetrics depthLimit depth pointer metrics value) := by
  have hsum : metrics.tokens + 1 + value.width = metrics.tokens + (1 + value.width) := by omega
  obtain ⟨hdepth, htokens⟩ := recordDepth_depth
    { metrics with nodes := metrics.nodes + 1, tokens := metrics.tokens + 1 } depth pointer
  unfold enterMetrics
  dsimp only
  split
  · rename_i hbroken
    exact ⟨hbroken.2, by rw [htokens]; dsimp only; omega, hdepth.le⟩
  · obtain ⟨hpointerTokens, hpointerDepth⟩ := recordPointer_same (ValueMetrics.recordDepth
      { metrics with nodes := metrics.nodes + 1, tokens := metrics.tokens + 1 } depth pointer)
      pointer
    have htokens := hpointerTokens.trans htokens
    have hdepth := hpointerDepth.trans hdepth
    cases value with
    | object members =>
      obtain ⟨ht, hd⟩ := recordMembers_same _ members.length pointer
      exact ⟨ht.trans ((congrArg (· + members.length) htokens).trans hsum), hd.trans hdepth⟩
    | array items =>
      obtain ⟨ht, hd⟩ := recordMembers_same _ items.length pointer
      exact ⟨ht.trans htokens, hd.trans hdepth⟩
    | _ =>
      obtain ⟨ht, hd⟩ := recordScalar_same _ (Value.scalarBytes _) pointer
      exact ⟨ht.trans htokens, hd.trans hdepth⟩

theorem itemsMetricsFrom_measures {items : List Value} {depth : Nat}
    (ih : ∀ v ∈ items, ∀ pointer metrics, Measures depthLimit (tokenCount v)
      (depth + 1 + v.height) metrics (metricsFrom depthLimit (depth + 1) pointer metrics v))
    (pointer : Pointer) (nextIndex : Nat) {metrics : ValueMetrics} (hdepth : depth ≤ metrics.depth) :
    Measures depthLimit (items.map tokenCount).sum (depth + Value.heightItems items) metrics
      (itemsMetricsFrom depthLimit depth pointer nextIndex metrics items) := by
  induction items generalizing nextIndex metrics with
  | nil => exact ⟨rfl, (Nat.max_eq_left hdepth).symm⟩
  | cons v vs ihv =>
    obtain ⟨hv, hvs⟩ := List.forall_mem_cons.mp ih
    have hmax : depth + Value.heightItems (v :: vs) =
        max (depth + 1 + v.height) (depth + Value.heightItems vs) := by
      rw [Value.heightItems]
      omega
    rw [hmax, List.map_cons, List.sum_cons]
    exact (hv _ metrics).bind fun middle hmiddle => ihv hvs _ (by omega)

theorem membersMetricsFrom_measures {members : List (String × Value)} {depth : Nat}
    (ih : ∀ e ∈ members, ∀ pointer metrics, Measures depthLimit (tokenCount e.2)
      (depth + 1 + e.2.height) metrics (metricsFrom depthLimit (depth + 1) pointer metrics e.2))
    (pointer : Pointer) {metrics : ValueMetrics} (hdepth : depth ≤ metrics.depth) :
    Measures depthLimit (members.map fun e => tokenCount e.2).sum
      (depth + Value.heightMembers members) metrics
      (membersMetricsFrom depthLimit depth pointer metrics members) := by
  induction members generalizing metrics with
  | nil => exact ⟨rfl, (Nat.max_eq_left hdepth).symm⟩
  | cons e es ihe =>
    obtain ⟨key, v⟩ := e
    obtain ⟨hv, hes⟩ := List.forall_mem_cons.mp ih
    have hmax : depth + Value.heightMembers ((key, v) :: es) =
        max (depth + 1 + v.height) (depth + Value.heightMembers es) := by
      rw [Value.heightMembers]
      omega
    obtain ⟨htokens, hsame⟩ := recordScalar_same metrics key.utf8ByteSize (pointer ++ [key])
    have hrest := (hv (pointer ++ [key]) _).bind fun middle hmiddle =>
      ihe hes (hdepth.trans (hsame.ge.trans ((Nat.le_max_left _ _).trans hmiddle)))
    rw [hmax, List.map_cons, List.sum_cons]
    unfold Measures at hrest ⊢
    rw [htokens, hsame] at hrest
    exact hrest

theorem metricsFrom_measures (v : Value) : ∀ depth pointer metrics,
    Measures depthLimit (tokenCount v) (depth + v.height) metrics
      (metricsFrom depthLimit depth pointer metrics v) := by
  induction v using Value.induct with
  | array items ih =>
    intro depth pointer metrics
    have hmax : depth + (Value.array items).height =
        max depth (depth + Value.heightItems items) := by
      rw [Value.height]
      omega
    rw [hmax, tokenCount_array]
    exact (enterMetrics_measures depth pointer metrics (.array items)).bind
      fun middle hmiddle => itemsMetricsFrom_measures (fun v hv => ih v hv (depth + 1)) pointer 0
        ((Nat.le_max_right _ _).trans hmiddle)
  | object members ih =>
    intro depth pointer metrics
    have hmax : depth + (Value.object members).height =
        max depth (depth + Value.heightMembers members) := by
      rw [Value.height]
      omega
    rw [hmax, tokenCount_object]
    exact (enterMetrics_measures depth pointer metrics (.object members)).bind
      fun middle hmiddle => membersMetricsFrom_measures (fun e he => ih e he (depth + 1)) pointer
        ((Nat.le_max_right _ _).trans hmiddle)
  | null => exact fun depth pointer metrics => enterMetrics_measures depth pointer metrics .null
  | bool b =>
    exact fun depth pointer metrics => enterMetrics_measures depth pointer metrics (.bool b)
  | number literal =>
    exact fun depth pointer metrics => enterMetrics_measures depth pointer metrics (.number literal)
  | string s =>
    exact fun depth pointer metrics => enterMetrics_measures depth pointer metrics (.string s)

theorem valueMetrics_le (v : Value) (depthLimit : Nat) :
    (valueMetrics v depthLimit).tokens ≤ tokenCount v ∧
      (valueMetrics v depthLimit).depth ≤ v.height := by
  have hwalk : Measures depthLimit (tokenCount v) (0 + v.height) {} _ :=
    metricsFrom_measures v 0 [] {}
  unfold valueMetrics
  cases hresult : metricsFrom depthLimit 0 [] {} v with
  | ok metrics =>
    rw [hresult] at hwalk
    obtain ⟨htokens, hdepth⟩ := hwalk
    dsimp only at htokens hdepth ⊢
    omega
  | error metrics =>
    rw [hresult] at hwalk
    obtain ⟨_, htokens, hdepth⟩ := hwalk
    dsimp only at htokens hdepth ⊢
    omega

/-- A walk that ends has seen every value. -/
theorem valueMetrics_eq {v : Value} {depthLimit : Nat} (h : v.height ≤ depthLimit) :
    (valueMetrics v depthLimit).tokens = tokenCount v ∧
      (valueMetrics v depthLimit).depth = v.height := by
  have hwalk : Measures depthLimit (tokenCount v) (0 + v.height) {} _ :=
    metricsFrom_measures v 0 [] {}
  unfold valueMetrics
  cases hresult : metricsFrom depthLimit 0 [] {} v with
  | ok metrics =>
    rw [hresult] at hwalk
    obtain ⟨htokens, hdepth⟩ := hwalk
    dsimp only at htokens hdepth ⊢
    omega
  | error metrics =>
    rw [hresult] at hwalk
    have hlimit := hwalk.1
    omega

end Walk

/-! ## The source dominates the value -/

theorem sourceMeasures_text (text : Item Syntax) :
    sourceMeasures text.bytes = some (tightest text.raw) := by
  rw [sourceMeasures, sourceValueMetrics_text, sourceMetrics_text]
  rfl

theorem item_noLarger (text : Item Syntax) : NoLarger text.value text.raw := by
  obtain ⟨before, inner, after⟩ := text
  exact value_noLarger inner

theorem item_raw_noLarger {text : Item Syntax} (h : text.KeysOnce) :
    NoLarger text.raw text.value := by
  obtain ⟨before, inner, after⟩ := text
  exact raw_noLarger h

theorem within_antisymm {a b : InputLimits} (hab : Within a b) (hba : Within b a) : a = b := by
  obtain ⟨depth, nodes, members, collectionLength, scalarBytes⟩ := a
  obtain ⟨hdepth, hnodes, hmembers, hcollection, hscalar⟩ := hab
  obtain ⟨hdepth', hnodes', hmembers', hcollection', hscalar'⟩ := hba
  obtain rfl := le_antisymm hdepth hdepth'
  obtain rfl := le_antisymm hnodes hnodes'
  obtain rfl := le_antisymm hmembers hmembers'
  obtain rfl := le_antisymm hcollection hcollection'
  obtain rfl := le_antisymm hscalar hscalar'
  rfl

theorem within_trans {a b c : InputLimits} (hab : Within a b) (hbc : Within b c) : Within a c := by
  obtain ⟨hdepth, hnodes, hmembers, hcollection, hscalar⟩ := hab
  obtain ⟨hdepth', hnodes', hmembers', hcollection', hscalar'⟩ := hbc
  exact ⟨hdepth.trans hdepth', hnodes.trans hnodes', hmembers.trans hmembers',
    hcollection.trans hcollection', hscalar.trans hscalar'⟩

/-- What passes the limits on a document is measured within them. -/
theorem within_of_checkInputSource {bytes : List UInt8} {limits : SourceLimits}
    {measured : InputLimits} (h : checkInputSource bytes limits = some (.ok ()))
    (hmeasured : sourceMeasures bytes = some measured) : Within measured limits.toInputLimits := by
  unfold sourceMeasures at hmeasured
  unfold checkInputSource at h
  dsimp only at h
  split at h
  · cases h
  · rename_i hfirst
    simp only [bind_eq_ok, checkBound_eq_ok, exists_const] at hfirst
    cases hscan : sourceValueMetrics bytes with
    | none => simp [hscan] at h
    | some metrics =>
      rw [hscan] at h hmeasured
      obtain rfl := Option.some.inj hmeasured
      have hsecond := Option.some.inj h
      simp only [bind_eq_ok, checkBound_eq_ok, exists_const] at hsecond
      exact ⟨hfirst.2.2, hsecond⟩

/-- The text `[[null]]`. -/
def nestedText : Item Syntax :=
  ⟨[], .array [] [⟨[], .array [] [⟨[], .null, []⟩], []⟩], []⟩

theorem source_scan_not_equal : nestedText.KeysOnce ∧
    (valueMetrics nestedText.value 0).tokens ≠ (sourceMetrics nestedText.bytes).1 := by
  refine ⟨⟨⟨trivial, trivial⟩, trivial⟩, ?_⟩
  rw [sourceMetrics_text]
  decide

theorem source_scan_dominates :
    (∀ bytes : List UInt8, ∃ measured, sourceMeasures bytes = some measured) ∧
    ∀ text : Item Syntax, ∃ measured, sourceMeasures text.bytes = some measured ∧
      (∀ limits, checkInputValue text.value limits = .ok () ↔ Within (tightest text.value) limits) ∧
      Within (tightest text.value) measured ∧
      (∀ depthLimit, (valueMetrics text.value depthLimit).tokens ≤ (sourceMetrics text.bytes).1 ∧
        (valueMetrics text.value depthLimit).depth ≤ (sourceMetrics text.bytes).2) ∧
      (text.KeysOnce → measured = tightest text.value ∧
        ∀ depthLimit, text.value.height ≤ depthLimit →
          (valueMetrics text.value depthLimit).tokens = (sourceMetrics text.bytes).1 ∧
          (valueMetrics text.value depthLimit).depth = (sourceMetrics text.bytes).2) ∧
      ∀ limits : SourceLimits, checkInputSource text.bytes limits = some (.ok ()) →
        checkInputValue text.value limits.toInputLimits = .ok () := by
  constructor
  · intro bytes
    obtain ⟨metrics, hmetrics⟩ := sourceValueMetrics_total bytes
    exact ⟨_, by rw [sourceMeasures, hmetrics]; rfl⟩
  · intro text
    have hmeasured := sourceMeasures_text text
    have hlarger := item_noLarger text
    have hwithin := within_of_noLarger hlarger
    refine ⟨_, hmeasured, fun limits => checkInputValue_iff_within, hwithin, ?_, ?_, ?_⟩
    · intro depthLimit
      obtain ⟨htokens, hdepth⟩ := valueMetrics_le text.value depthLimit
      rw [sourceMetrics_text]
      exact ⟨htokens.trans (Nat.add_le_add hlarger.nodes hlarger.members), hdepth.trans hwithin.1⟩
    · intro honce
      have hraw := item_raw_noLarger honce
      have heq := within_antisymm (within_of_noLarger hraw) hwithin
      refine ⟨heq, fun depthLimit hlimit => ?_⟩
      obtain ⟨htokens, hdepth⟩ := valueMetrics_eq hlimit
      have hcount : tokenCount text.value = tokenCount text.raw :=
        le_antisymm (Nat.add_le_add hlarger.nodes hlarger.members)
          (Nat.add_le_add hraw.nodes hraw.members)
      rw [sourceMetrics_text]
      exact ⟨htokens.trans hcount, hdepth.trans (congrArg InputLimits.depth heq).symm⟩
    · intro limits hpass
      exact checkInputValue_iff_within.mpr
        (within_trans hwithin (within_of_checkInputSource hpass hmeasured))

/-- The text `{"a":12,"b":[null]}`. -/
def memberText : Item Syntax :=
  let member (key : Char) (h : 0x20 ≤ key.toNat ∧ key ≠ '"' ∧ key ≠ '\\') (inner : Syntax) :
      Member Syntax := ⟨[], [.plain key h], [], ⟨[], inner, []⟩⟩
  ⟨[], .object [] [member 'a' (by decide) (.number "12" rfl),
    member 'b' (by decide) (.array [] [⟨[], .null, []⟩])], []⟩

theorem source_scan_dominates_members :
    sourceMeasures memberText.bytes = some (tightest memberText.value) ∧
    (valueMetrics memberText.value 3).tokens = (sourceMetrics memberText.bytes).1 := by
  obtain ⟨measured, hmeasured, -, -, -, honce, -⟩ := source_scan_dominates.2 memberText
  have hkeys : memberText.KeysOnce :=
    ⟨by decide, trivial, ⟨trivial, trivial⟩, trivial⟩
  obtain ⟨rfl, htokens⟩ := honce hkeys
  exact ⟨hmeasured, (htokens 3 (by decide)).1⟩

end Schemaform.Source
