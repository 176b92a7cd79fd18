import Schemaform.Form.Scan
import Schemaform.Ui.Shape

/-!
# Ui.Metrics

The limits on what is handed to a serializer.

* `MetricSerializer`: the serializer that counts, and `checkSerializableInput`.
* `Shape.counts`: a shape adds what its document weighs, one lemma for each kind of call.
* `checkSerializableInput_iff`: a shape passes exactly if its document is within the limits.
-/

namespace Schemaform.Ui

/-! ## Counting calls -/

namespace MetricSerializer

variable (limits : InputLimits) (depth : Nat)

def node (metrics : InputMetrics) : Except InputLimitError InputMetrics := do
  checkBound "depth" limits.depth depth []
  let nodes := metrics.nodes + 1
  checkBound "nodes" limits.nodes nodes []
  pure { metrics with nodes }

def countMembers (length : Nat) (metrics : InputMetrics) :
    Except InputLimitError InputMetrics := do
  let members := metrics.members + length
  checkBound "members" limits.members members []
  pure { metrics with members }

def collection (length : Nat) (members : Bool) (metrics : InputMetrics) :
    Except InputLimitError InputMetrics := do
  let metrics ← node limits depth metrics
  checkBound "collection_length" limits.collectionLength length []
  if members then countMembers limits length metrics else pure metrics

def scalarWithoutNode (bytes : Nat) : Except InputLimitError Unit :=
  checkBound "scalar_bytes" limits.scalarBytes bytes []

def scalar (bytes : Nat) (metrics : InputMetrics) : Except InputLimitError InputMetrics := do
  let metrics ← node limits depth metrics
  scalarWithoutNode limits bytes
  pure metrics

/-- What a key adds to a map whose length was not announced. -/
def unknownLength (announced : Bool) (length : Nat) (metrics : InputMetrics) :
    Except InputLimitError InputMetrics := do
  if announced then pure metrics
  else
    checkBound "collection_length" limits.collectionLength length []
    countMembers limits 1 metrics

end MetricSerializer

open MetricSerializer

namespace Shape

mutual

def serialize (limits : InputLimits) (depth : Nat) (metrics : InputMetrics) :
    Shape → Except InputLimitError InputMetrics
  | unit | none => scalar limits depth 4 metrics
  | some value => serialize limits depth metrics value
  | bool value => scalar limits depth (if value then 4 else 5) metrics
  | u64 value => scalar limits depth (Nat.repr value).utf8ByteSize metrics
  | str text => scalar limits depth text.utf8ByteSize metrics
  | unitVariant variant => scalar limits depth variant.utf8ByteSize metrics
  | newtypeVariant variant value => do
    let metrics ← collection limits depth 1 true metrics
    scalarWithoutNode limits variant.utf8ByteSize
    serialize limits (depth + 1) metrics value
  | seq items => do
    let metrics ← collection limits depth items.length false metrics
    serializeElements limits depth metrics items
  | map announced entries => do
    let metrics ← if announced then collection limits depth entries.length true metrics
      else node limits depth metrics
    serializeEntries limits depth announced 0 metrics entries
  | struct fields => do
    let metrics ← collection limits depth fields.length true metrics
    serializeFields limits depth metrics fields
  | number literal => do
    let metrics ← collection limits depth 1 true metrics
    scalarWithoutNode limits numberToken.utf8ByteSize
    scalar limits (depth + 1) literal.utf8ByteSize metrics

def serializeElements (limits : InputLimits) (depth : Nat) (metrics : InputMetrics) :
    List Shape → Except InputLimitError InputMetrics
  | [] => pure metrics
  | item :: items => do
    let metrics ← serialize limits (depth + 1) metrics item
    serializeElements limits depth metrics items

def serializeEntries (limits : InputLimits) (depth : Nat) (announced : Bool) (length : Nat)
    (metrics : InputMetrics) : List (String × Shape) → Except InputLimitError InputMetrics
  | [] => pure metrics
  | (key, value) :: entries => do
    let metrics ← unknownLength limits announced (length + 1) metrics
    scalarWithoutNode limits key.utf8ByteSize
    let metrics ← serialize limits (depth + 1) metrics value
    serializeEntries limits depth announced (length + 1) metrics entries

def serializeFields (limits : InputLimits) (depth : Nat) (metrics : InputMetrics) :
    List (String × Shape) → Except InputLimitError InputMetrics
  | [] => pure metrics
  | (key, value) :: fields => do
    scalarWithoutNode limits key.utf8ByteSize
    let metrics ← serialize limits (depth + 1) metrics value
    serializeFields limits depth metrics fields

end

/-- A number goes through the serializer as the struct it is. -/
theorem serialize_number (limits : InputLimits) (depth : Nat) (metrics : InputMetrics)
    (literal : String) : serialize limits depth metrics (.number literal) =
      serialize limits depth metrics (.struct [(numberToken, .str literal)]) := by
  simp only [serialize, serializeFields, bind_pure, List.length_singleton]

end Shape

def checkSerializableInput (shape : Shape) (limits : InputLimits) :
    Except InputLimitError Unit := do
  let _ ← shape.serialize limits 0 ⟨0, 0⟩

/-! ## What the counting checks -/

section Counting

variable {limits : InputLimits} {depth : Nat} {metrics metrics' : InputMetrics}

theorem node_iff (hmembers : metrics.members ≤ limits.members) :
    node limits depth metrics = .ok metrics' ↔
      depth ≤ limits.depth ∧ Reaches limits metrics 1 0 metrics' := by
  unfold node Reaches
  simp only [bind_eq_ok, checkBound_eq_ok, exists_const, pure, Except.pure, Except.ok.injEq]
  constructor
  · rintro ⟨hdepth, hnodes, rfl⟩
    exact ⟨hdepth, rfl, hnodes, hmembers⟩
  · rintro ⟨hdepth, rfl, hnodes, _⟩
    exact ⟨hdepth, hnodes, rfl⟩

theorem countMembers_iff {length : Nat} (hnodes : metrics.nodes ≤ limits.nodes) :
    countMembers limits length metrics = .ok metrics' ↔ Reaches limits metrics 0 length metrics' := by
  unfold countMembers Reaches
  simp only [bind_eq_ok, checkBound_eq_ok, exists_const, pure, Except.pure, Except.ok.injEq]
  constructor
  · rintro ⟨hmembers, rfl⟩
    exact ⟨rfl, hnodes, hmembers⟩
  · rintro ⟨rfl, _, hmembers⟩
    exact ⟨hmembers, rfl⟩

theorem collection_iff {length : Nat} {members : Bool} (hmembers : metrics.members ≤ limits.members) :
    collection limits depth length members metrics = .ok metrics' ↔
      (depth ≤ limits.depth ∧ length ≤ limits.collectionLength) ∧
        Reaches limits metrics 1 (if members then length else 0) metrics' := by
  unfold collection
  simp only [bind_eq_ok, checkBound_eq_ok, exists_const]
  cases members with
  | false =>
    simp only [Bool.false_eq_true, if_false, pure, Except.pure, Except.ok.injEq]
    constructor
    · rintro ⟨middle, hnode, hlength, rfl⟩
      obtain ⟨hdepth, hreaches⟩ := (node_iff hmembers).mp hnode
      exact ⟨⟨hdepth, hlength⟩, hreaches⟩
    · rintro ⟨⟨hdepth, hlength⟩, hreaches⟩
      exact ⟨_, (node_iff hmembers).mpr ⟨hdepth, hreaches⟩, hlength, rfl⟩
  | true =>
    have hsteps : (∃ middle, Reaches limits metrics 1 0 middle ∧
        Reaches limits middle 0 length metrics') ↔ Reaches limits metrics 1 length metrics' :=
      Reaches.comp.trans (by rw [Nat.add_zero, Nat.zero_add])
    simp only [if_true]
    rw [← hsteps]
    constructor
    · rintro ⟨middle, hnode, hlength, hcount⟩
      obtain ⟨hdepth, hreaches⟩ := (node_iff hmembers).mp hnode
      exact ⟨⟨hdepth, hlength⟩, middle, hreaches, (countMembers_iff hreaches.2.1).mp hcount⟩
    · rintro ⟨⟨hdepth, hlength⟩, middle, hreaches, hcount⟩
      exact ⟨middle, (node_iff hmembers).mpr ⟨hdepth, hreaches⟩, hlength,
        (countMembers_iff hreaches.2.1).mpr hcount⟩

theorem scalar_iff {bytes : Nat} (hmembers : metrics.members ≤ limits.members) :
    scalar limits depth bytes metrics = .ok metrics' ↔
      (depth ≤ limits.depth ∧ bytes ≤ limits.scalarBytes) ∧
        Reaches limits metrics 1 0 metrics' := by
  unfold scalar scalarWithoutNode
  simp only [bind_eq_ok, checkBound_eq_ok, exists_const, node_iff hmembers, pure, Except.pure,
    Except.ok.injEq]
  constructor
  · rintro ⟨_, ⟨hdepth, hreaches⟩, hbytes, rfl⟩
    exact ⟨⟨hdepth, hbytes⟩, hreaches⟩
  · rintro ⟨⟨hdepth, hbytes⟩, hreaches⟩
    exact ⟨_, ⟨hdepth, hreaches⟩, hbytes, rfl⟩

namespace Shape

theorem toItems_eq {ofNumber : String → Value} (items : List Shape) :
    toItems ofNumber items = items.map (toValue ofNumber) := by
  induction items with
  | nil => rfl
  | cons item items ih => rw [toItems, ih, List.map_cons]

theorem toMembers_eq {ofNumber : String → Value} (entries : List (String × Shape)) :
    toMembers ofNumber entries = entries.map fun entry => (entry.1, toValue ofNumber entry.2) := by
  induction entries with
  | nil => rfl
  | cons entry entries ih => rw [toMembers, ih, List.map_cons]

/-- Adds what a shape weighs if its document fits. -/
def Counts (limits : InputLimits) (depth : Nat) (shape : Shape) : Prop :=
  ∀ metrics metrics' : InputMetrics, metrics.members ≤ limits.members →
    (serialize limits depth metrics shape = .ok metrics' ↔ Fits limits depth shape.document ∧
      Reaches limits metrics shape.document.nodeCount shape.document.memberCount metrics')

theorem serializeElements_iff {items : List Shape}
    (ih : ∀ item ∈ items, Counts limits (depth + 1) item)
    (hnodes : metrics.nodes ≤ limits.nodes) (hmembers : metrics.members ≤ limits.members) :
    serializeElements limits depth metrics items = .ok metrics' ↔
      (∀ item ∈ items, Fits limits (depth + 1) item.document) ∧
      Reaches limits metrics (items.map fun item => item.document.nodeCount).sum
        (items.map fun item => item.document.memberCount).sum metrics' := by
  induction items generalizing metrics with
  | nil =>
    simp only [serializeElements, pure, Except.pure, Except.ok.injEq, Reaches, List.map_nil,
      List.sum_nil, Nat.add_zero, List.not_mem_nil, false_implies, implies_true, true_and]
    constructor
    · rintro rfl
      exact ⟨rfl, hnodes, hmembers⟩
    · rintro ⟨rfl, _⟩
      rfl
  | cons item items ihs =>
    obtain ⟨hitem, hitems⟩ := List.forall_mem_cons.mp ih
    rw [serializeElements, bind_eq_ok, List.forall_mem_cons, List.map_cons, List.map_cons,
      List.sum_cons, List.sum_cons, ← Reaches.comp]
    constructor
    · rintro ⟨middle, hserialize, hrest⟩
      obtain ⟨hfits, hreaches⟩ := (hitem _ _ hmembers).mp hserialize
      obtain ⟨hfits', hreaches'⟩ := (ihs hitems hreaches.2.1 hreaches.2.2).mp hrest
      exact ⟨⟨hfits, hfits'⟩, middle, hreaches, hreaches'⟩
    · rintro ⟨⟨hfits, hfits'⟩, middle, hreaches, hreaches'⟩
      exact ⟨middle, (hitem _ _ hmembers).mpr ⟨hfits, hreaches⟩,
        (ihs hitems hreaches.2.1 hreaches.2.2).mpr ⟨hfits', hreaches'⟩⟩

theorem serializeFields_iff {fields : List (String × Shape)}
    (ih : ∀ field ∈ fields, Counts limits (depth + 1) field.2)
    (hnodes : metrics.nodes ≤ limits.nodes) (hmembers : metrics.members ≤ limits.members) :
    serializeFields limits depth metrics fields = .ok metrics' ↔
      (∀ field ∈ fields, field.1.utf8ByteSize ≤ limits.scalarBytes ∧
        Fits limits (depth + 1) field.2.document) ∧
      Reaches limits metrics (fields.map fun field => field.2.document.nodeCount).sum
        (fields.map fun field => field.2.document.memberCount).sum metrics' := by
  induction fields generalizing metrics with
  | nil =>
    simp only [serializeFields, pure, Except.pure, Except.ok.injEq, Reaches, List.map_nil,
      List.sum_nil, Nat.add_zero, List.not_mem_nil, false_implies, implies_true, true_and]
    constructor
    · rintro rfl
      exact ⟨rfl, hnodes, hmembers⟩
    · rintro ⟨rfl, _⟩
      rfl
  | cons field fields ihs =>
    obtain ⟨key, value⟩ := field
    obtain ⟨hfield, hfields⟩ := List.forall_mem_cons.mp ih
    rw [serializeFields, List.forall_mem_cons, List.map_cons, List.map_cons, List.sum_cons,
      List.sum_cons, ← Reaches.comp]
    simp only [scalarWithoutNode, bind_eq_ok, checkBound_eq_ok, exists_const]
    constructor
    · rintro ⟨hkey, middle, hserialize, hrest⟩
      obtain ⟨hfits, hreaches⟩ := (hfield _ _ hmembers).mp hserialize
      obtain ⟨hfits', hreaches'⟩ := (ihs hfields hreaches.2.1 hreaches.2.2).mp hrest
      exact ⟨⟨⟨hkey, hfits⟩, hfits'⟩, middle, hreaches, hreaches'⟩
    · rintro ⟨⟨⟨hkey, hfits⟩, hfits'⟩, middle, hreaches, hreaches'⟩
      exact ⟨hkey, middle, (hfield _ _ hmembers).mpr ⟨hfits, hreaches⟩,
        (ihs hfields hreaches.2.1 hreaches.2.2).mpr ⟨hfits', hreaches'⟩⟩

/-- With its length announced, a map is counted as a struct is. -/
theorem serializeEntries_announced (entries : List (String × Shape)) (length : Nat)
    (metrics : InputMetrics) : serializeEntries limits depth true length metrics entries =
      serializeFields limits depth metrics entries := by
  induction entries generalizing length metrics with
  | nil => rfl
  | cons entry entries ih =>
    obtain ⟨key, value⟩ := entry
    simp only [serializeEntries, serializeFields, unknownLength, if_true, pure_bind, ih]

/-- Without, its length is checked and its members are counted on the way. -/
theorem serializeEntries_unannounced {entries : List (String × Shape)} {length : Nat}
    (ih : ∀ entry ∈ entries, Counts limits (depth + 1) entry.2)
    (hlength : length ≤ limits.collectionLength)
    (hnodes : metrics.nodes ≤ limits.nodes) (hmembers : metrics.members ≤ limits.members) :
    serializeEntries limits depth false length metrics entries = .ok metrics' ↔
      length + entries.length ≤ limits.collectionLength ∧
      (∀ entry ∈ entries, entry.1.utf8ByteSize ≤ limits.scalarBytes ∧
        Fits limits (depth + 1) entry.2.document) ∧
      Reaches limits metrics (entries.map fun entry => entry.2.document.nodeCount).sum
        (entries.length + (entries.map fun entry => entry.2.document.memberCount).sum)
        metrics' := by
  induction entries generalizing length metrics with
  | nil =>
    simp only [serializeEntries, pure, Except.pure, Except.ok.injEq, Reaches, List.map_nil,
      List.sum_nil, Nat.add_zero, List.not_mem_nil, false_implies, implies_true, true_and,
      List.length_nil]
    constructor
    · rintro rfl
      exact ⟨hlength, rfl, hnodes, hmembers⟩
    · rintro ⟨_, rfl, _⟩
      rfl
  | cons entry entries ihs =>
    obtain ⟨key, value⟩ := entry
    obtain ⟨hentry, hentries⟩ := List.forall_mem_cons.mp ih
    have hsum : ∀ a b c : Nat, c + 1 + (a + b) = 1 + (a + (c + b)) := by omega
    rw [serializeEntries, List.forall_mem_cons, List.map_cons, List.map_cons, List.sum_cons,
      List.sum_cons, List.length_cons, hsum,
      ← Nat.zero_add (value.document.nodeCount + _), ← Reaches.comp]
    simp only [unknownLength, scalarWithoutNode, Bool.false_eq_true, if_false, bind_eq_ok,
      checkBound_eq_ok, exists_const, countMembers_iff hnodes]
    constructor
    · rintro ⟨counted, ⟨hnext, hcounted⟩, hkey, middle, hserialize, hrest⟩
      obtain ⟨hfits, hreaches⟩ := (hentry _ _ hcounted.2.2).mp hserialize
      obtain ⟨hlast, hfits', hreaches'⟩ :=
        (ihs hentries hnext hreaches.2.1 hreaches.2.2).mp hrest
      exact ⟨by omega, ⟨⟨hkey, hfits⟩, hfits'⟩, counted, hcounted,
        Reaches.comp.mp ⟨middle, hreaches, hreaches'⟩⟩
    · rintro ⟨hlast, ⟨⟨hkey, hfits⟩, hfits'⟩, counted, hcounted, hreaches⟩
      obtain ⟨middle, hreaches, hreaches'⟩ := Reaches.comp.mpr hreaches
      have hnext : length + 1 ≤ limits.collectionLength := by omega
      exact ⟨counted, ⟨hnext, hcounted⟩, hkey, middle,
        (hentry _ _ hcounted.2.2).mpr ⟨hfits, hreaches⟩,
        (ihs hentries hnext hreaches.2.1 hreaches.2.2).mpr ⟨by omega, hfits', hreaches'⟩⟩

theorem document_seq (items : List Shape) :
    (Shape.seq items).document = .array (items.map document) := by
  rw [document, toValue, toItems_eq]
  rfl

theorem document_map (announced : Bool) (entries : List (String × Shape)) :
    (Shape.map announced entries).document =
      .object (entries.map fun entry => (entry.1, entry.2.document)) := by
  rw [document, toValue, toMembers_eq]
  rfl

theorem document_struct (fields : List (String × Shape)) :
    (Shape.struct fields).document =
      .object (fields.map fun field => (field.1, field.2.document)) := by
  rw [document, toValue, toMembers_eq]
  rfl

theorem fits_documents {entries : List (String × Shape)} :
    Fits limits depth (.object (entries.map fun entry => (entry.1, entry.2.document))) ↔
      (depth ≤ limits.depth ∧ entries.length ≤ limits.collectionLength) ∧
        ∀ entry ∈ entries, entry.1.utf8ByteSize ≤ limits.scalarBytes ∧
          Fits limits (depth + 1) entry.2.document := by
  rw [fits_object, List.length_map, List.forall_mem_map]

theorem nodeCount_documents (entries : List (String × Shape)) :
    (Value.object (entries.map fun entry => (entry.1, entry.2.document))).nodeCount =
      1 + (entries.map fun entry => entry.2.document.nodeCount).sum := by
  rw [Value.nodeCount_object, List.map_map]
  rfl

theorem memberCount_documents (entries : List (String × Shape)) :
    (Value.object (entries.map fun entry => (entry.1, entry.2.document))).memberCount =
      entries.length + (entries.map fun entry => entry.2.document.memberCount).sum := by
  rw [Value.memberCount_object, List.map_map, List.length_map]
  rfl

/-- A struct, or a map announced with its length. -/
theorem counts_struct {fields : List (String × Shape)}
    (ih : ∀ field ∈ fields, Counts limits (depth + 1) field.2) :
    Counts limits depth (.struct fields) := by
  intro metrics metrics' hmembers
  rw [serialize, bind_eq_ok, document_struct, fits_documents, nodeCount_documents,
    memberCount_documents, ← Reaches.comp]
  constructor
  · rintro ⟨middle, hcollection, hfields⟩
    obtain ⟨hopen, hreaches⟩ := (collection_iff hmembers).mp hcollection
    obtain ⟨hfits, hreaches'⟩ := (serializeFields_iff ih hreaches.2.1 hreaches.2.2).mp hfields
    exact ⟨⟨hopen, hfits⟩, middle, hreaches, hreaches'⟩
  · rintro ⟨⟨hopen, hfits⟩, middle, hreaches, hreaches'⟩
    exact ⟨middle, (collection_iff hmembers).mpr ⟨hopen, hreaches⟩,
      (serializeFields_iff ih hreaches.2.1 hreaches.2.2).mpr ⟨hfits, hreaches'⟩⟩

theorem counts_map {entries : List (String × Shape)}
    (ih : ∀ entry ∈ entries, Counts limits (depth + 1) entry.2) (announced : Bool) :
    Counts limits depth (.map announced entries) := by
  cases announced with
  | true =>
    intro metrics metrics' hmembers
    have hstruct := counts_struct ih metrics metrics' hmembers
    rw [document_struct, ← document_map true, serialize] at hstruct
    rw [← hstruct, serialize, if_pos rfl]
    simp only [serializeEntries_announced]
  | false =>
    intro metrics metrics' hmembers
    rw [serialize, if_neg Bool.false_ne_true, bind_eq_ok, document_map, fits_documents,
      nodeCount_documents, memberCount_documents, ← Nat.zero_add (entries.length + _),
      ← Reaches.comp]
    simp only [node_iff hmembers]
    constructor
    · rintro ⟨middle, ⟨hdepth, hreaches⟩, hentries⟩
      obtain ⟨hlength, hfits, hreaches'⟩ :=
        (serializeEntries_unannounced ih (Nat.zero_le _) hreaches.2.1 hreaches.2.2).mp hentries
      exact ⟨⟨⟨hdepth, by omega⟩, hfits⟩, middle, hreaches, hreaches'⟩
    · rintro ⟨⟨⟨hdepth, hlength⟩, hfits⟩, middle, hreaches, hreaches'⟩
      exact ⟨middle, ⟨hdepth, hreaches⟩,
        (serializeEntries_unannounced ih (Nat.zero_le _) hreaches.2.1 hreaches.2.2).mpr
          ⟨by omega, hfits, hreaches'⟩⟩

theorem counts_seq {items : List Shape} (ih : ∀ item ∈ items, Counts limits (depth + 1) item) :
    Counts limits depth (.seq items) := by
  intro metrics metrics' hmembers
  rw [serialize, bind_eq_ok, document_seq, fits_array, List.length_map, List.forall_mem_map,
    Value.nodeCount_array, Value.memberCount_array, List.map_map, List.map_map, ← Reaches.comp]
  constructor
  · rintro ⟨middle, hcollection, hitems⟩
    obtain ⟨hopen, hreaches⟩ := (collection_iff hmembers).mp hcollection
    obtain ⟨hfits, hreaches'⟩ := (serializeElements_iff ih hreaches.2.1 hreaches.2.2).mp hitems
    exact ⟨⟨hopen, hfits⟩, middle, hreaches, hreaches'⟩
  · rintro ⟨⟨hopen, hfits⟩, middle, hreaches, hreaches'⟩
    exact ⟨middle, (collection_iff hmembers).mpr ⟨hopen, hreaches⟩,
      (serializeElements_iff ih hreaches.2.1 hreaches.2.2).mpr ⟨hfits, hreaches'⟩⟩

/-- A variant is counted as a struct of one field. -/
theorem counts_newtypeVariant {variant : String} {value : Shape}
    (ih : Counts limits (depth + 1) value) :
    Counts limits depth (.newtypeVariant variant value) := by
  intro metrics metrics' hmembers
  have hstruct : Counts limits depth (.struct [(variant, value)]) :=
    counts_struct (List.forall_mem_singleton.mpr ih)
  have hdocument : (Shape.newtypeVariant variant value).document =
      (Shape.struct [(variant, value)]).document := rfl
  rw [hdocument, ← hstruct metrics metrics' hmembers]
  simp only [serialize, serializeFields, bind_pure, List.length_singleton]

theorem counts_scalar {shape : Shape}
    (hserialize : ∀ metrics, serialize limits depth metrics shape =
      scalar limits depth shape.document.scalarBytes metrics)
    (hfits : Fits limits depth shape.document ↔
      depth ≤ limits.depth ∧ shape.document.scalarBytes ≤ limits.scalarBytes)
    (hnodes : shape.document.nodeCount = 1) (hmembers : shape.document.memberCount = 0) :
    Counts limits depth shape := by
  intro metrics metrics' hwithin
  rw [hserialize, hfits, hnodes, hmembers]
  exact scalar_iff hwithin

theorem counts (shape : Shape) : ∀ depth : Nat, Counts limits depth shape := by
  induction shape using Shape.induct with
  | some value ih =>
    intro depth metrics metrics' hmembers
    rw [serialize]
    exact ih depth metrics metrics' hmembers
  | newtypeVariant variant value ih => exact fun depth => counts_newtypeVariant (ih (depth + 1))
  | seq items ih => exact fun depth => counts_seq fun item hitem => ih item hitem (depth + 1)
  | map announced entries ih =>
    exact fun depth => counts_map (fun entry hentry => ih entry hentry (depth + 1)) announced
  | struct fields ih =>
    exact fun depth => counts_struct fun field hfield => ih field hfield (depth + 1)
  | number literal =>
    intro depth metrics metrics' hmembers
    have hstr : Counts limits (depth + 1) (.str literal) :=
      counts_scalar (fun _ => by rw [serialize]; rfl) Iff.rfl rfl rfl
    have hstruct : Counts limits depth (.struct [(numberToken, .str literal)]) :=
      counts_struct (List.forall_mem_singleton.mpr hstr)
    rw [serialize_number]
    exact hstruct metrics metrics' hmembers
  | _ => exact fun depth => counts_scalar (fun _ => by rw [serialize]; rfl) Iff.rfl rfl rfl

end Shape

/-- A serialized shape passes exactly if its document does. -/
theorem checkSerializableInput_iff {shape : Shape} :
    checkSerializableInput shape limits = .ok () ↔ Admitted limits shape.document := by
  unfold checkSerializableInput
  rw [bind_eq_ok]
  constructor
  · rintro ⟨metrics', hserialize, _⟩
    obtain ⟨hfits, rfl, hnodes, hmembers⟩ := (shape.counts 0 _ _ (Nat.zero_le _)).mp hserialize
    dsimp only at hnodes hmembers
    rw [Nat.zero_add] at hnodes hmembers
    exact ⟨hfits, hnodes, hmembers⟩
  · intro h
    refine ⟨_, (shape.counts 0 _ _ (Nat.zero_le _)).mpr ⟨h.fits, rfl, ?_, ?_⟩, rfl⟩
    · dsimp only
      rw [Nat.zero_add]
      exact h.nodes
    · dsimp only
      rw [Nat.zero_add]
      exact h.members

end Counting

end Schemaform.Ui
