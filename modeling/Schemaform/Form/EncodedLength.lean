import Schemaform.Form.External
import Schemaform.Json.Encode
import Schemaform.Json.Size

/-!
# Form.EncodedLength

Encoded sizes as they are counted, with a stack of frames and an early exit.

* `addJsonEncodedLen`: a value's frames, one at a time.
* `countFrames_eq`: the frames are charged what `valueSizes` lists.
* `valueSizes_sum`: the list sums to the bytes of the compact encoding.
* `encoded_length_exact`.
-/

namespace Schemaform.EncodedLength

def addExternalFindingBytes (bytes additional maximum : Nat) : Except Nat Nat :=
  if bytes + additional > maximum then .error (bytes + additional) else .ok (bytes + additional)

def addJsonStringEncodedLen (value : String) (bytes maximum : Nat) : Except Nat Nat := do
  let bytes ← addExternalFindingBytes bytes 2 maximum
  value.toList.foldlM (fun bytes character =>
    addExternalFindingBytes bytes (characterSize character) maximum) bytes

/-- A value to count, or what is left of a container. -/
inductive Frame where
  | value (value : Value)
  | array (values : List Value)
  | object (values : List (String × Value))

namespace Frame

def weight : Frame → Nat
  | .value v => 3 * v.nodeCount - 1
  | .array values => 1 + (values.map fun v => 3 * v.nodeCount).sum
  | .object values => 1 + (values.map fun e => 3 * e.2.nodeCount).sum

theorem sum_map_mul {α : Type} (k : Nat) (f : α → Nat) (l : List α) :
    (l.map fun a => k * f a).sum = k * (l.map f).sum := by
  induction l with
  | nil => rfl
  | cons a l ih => simp only [List.map_cons, List.sum_cons, ih, Nat.mul_add]

theorem weight_value_pos (v : Value) : 0 < weight (.value v) := by
  have := v.nodeCount_pos
  simp only [weight]
  omega

theorem weight_array (values : List Value) :
    weight (.array values) < weight (.value (.array values)) := by
  simp only [weight, Value.nodeCount_array, sum_map_mul]
  omega

theorem weight_object (values : List (String × Value)) :
    weight (.object values) < weight (.value (.object values)) := by
  simp only [weight, Value.nodeCount_object, sum_map_mul]
  omega

theorem weight_array_cons (v : Value) (values : List Value) :
    weight (.value v) + weight (.array values) < weight (.array (v :: values)) := by
  have := v.nodeCount_pos
  simp only [weight, List.map_cons, List.sum_cons]
  omega

theorem weight_object_cons (key : String) (v : Value) (values : List (String × Value)) :
    weight (.value v) + weight (.object values) < weight (.object ((key, v) :: values)) := by
  have := v.nodeCount_pos
  simp only [weight, List.map_cons, List.sum_cons]
  omega

theorem weight_pos (frame : Frame) : 0 < frame.weight := by
  cases frame with
  | value v => exact weight_value_pos v
  | array values => exact Nat.lt_of_lt_of_le Nat.one_pos (Nat.le_add_right _ _)
  | object values => exact Nat.lt_of_lt_of_le Nat.one_pos (Nat.le_add_right _ _)

end Frame

open EncodedLength.Frame in
/-- The top of the stack is counted first. -/
def countFrames (maximum : Nat) : List Frame → Nat → Except Nat Nat
  | [], bytes => .ok bytes
  | .value .null :: pending, bytes => do
    let bytes ← addExternalFindingBytes bytes 4 maximum
    countFrames maximum pending bytes
  | .value (.bool true) :: pending, bytes => do
    let bytes ← addExternalFindingBytes bytes 4 maximum
    countFrames maximum pending bytes
  | .value (.bool false) :: pending, bytes => do
    let bytes ← addExternalFindingBytes bytes 5 maximum
    countFrames maximum pending bytes
  | .value (.number literal) :: pending, bytes => do
    let bytes ← addExternalFindingBytes bytes literal.utf8ByteSize maximum
    countFrames maximum pending bytes
  | .value (.string s) :: pending, bytes => do
    let bytes ← addJsonStringEncodedLen s bytes maximum
    countFrames maximum pending bytes
  | .value (.array values) :: pending, bytes => do
    let bytes ← addExternalFindingBytes bytes (2 + (values.length - 1)) maximum
    countFrames maximum (.array values :: pending) bytes
  | .value (.object values) :: pending, bytes => do
    let bytes ← addExternalFindingBytes bytes (2 + (values.length - 1) + values.length) maximum
    countFrames maximum (.object values :: pending) bytes
  | .array [] :: pending, bytes => countFrames maximum pending bytes
  | .array (v :: values) :: pending, bytes =>
    countFrames maximum (.value v :: .array values :: pending) bytes
  | .object [] :: pending, bytes => countFrames maximum pending bytes
  | .object ((key, v) :: values) :: pending, bytes => do
    let bytes ← addJsonStringEncodedLen key bytes maximum
    countFrames maximum (.value v :: .object values :: pending) bytes
termination_by pending => (pending.map weight).sum
decreasing_by
  all_goals simp only [List.map_cons, List.sum_cons, ← Nat.add_assoc]
  all_goals
    first
    | exact Nat.add_lt_add_right (weight_array _) _
    | exact Nat.add_lt_add_right (weight_object _) _
    | exact Nat.add_lt_add_right (weight_array_cons _ _) _
    | exact Nat.add_lt_add_right (weight_object_cons _ _ _) _
    | exact Nat.lt_add_of_pos_left (weight_pos _)

def addJsonEncodedLen (value : Value) (bytes maximum : Nat) : Except Nat Nat :=
  countFrames maximum [.value value] bytes

def addExternalFindingsBytes (batch : ExternalFindingBatch) (bytes maximum : Nat) :
    Except Nat Nat :=
  batch.findings.foldlM (fun bytes finding => do
    let bytes ← addExternalFindingBytes bytes finding.code.utf8ByteSize maximum
    let bytes ← addExternalFindingBytes bytes finding.instanceLocation.text.utf8ByteSize maximum
    addJsonEncodedLen finding.parameters bytes maximum) bytes

def incomingExternalFindingBatchBytes (batch : ExternalFindingBatch) (maximum : Nat) :
    Except Nat Nat := do
  let bytes ← addExternalFindingBytes 0 batch.source.utf8ByteSize maximum
  addExternalFindingsBytes batch bytes maximum

def activeExternalFindingBatchBytes (batch : ExternalFindingBatch) (maximum : Nat) :
    Except Nat Nat :=
  if batch.findings.isEmpty then .ok 0
  else do
    let bytes ← addExternalFindingBytes 0 batch.source.utf8ByteSize maximum
    addExternalFindingsBytes batch bytes maximum

/-! ## The order of the charges -/

theorem addBytes_append (maximum bytes : Nat) (sizes sizes' : List Nat) :
    addBytes maximum bytes (sizes ++ sizes') =
      addBytes maximum bytes sizes >>= fun bytes => addBytes maximum bytes sizes' := by
  induction sizes generalizing bytes with
  | nil => rfl
  | cons size sizes ih =>
    rw [List.cons_append, addBytes, addBytes]
    split
    · rfl
    · exact ih _

theorem addExternalFindingBytes_eq (bytes additional maximum : Nat) :
    addExternalFindingBytes bytes additional maximum = addBytes maximum bytes [additional] := by
  rw [addExternalFindingBytes, addBytes]
  split <;> rfl

theorem addJsonStringEncodedLen_eq (value : String) (bytes maximum : Nat) :
    addJsonStringEncodedLen value bytes maximum = addBytes maximum bytes (stringSizes value) := by
  have hfold (cs : List Char) (bytes : Nat) :
      cs.foldlM (fun bytes character =>
        addExternalFindingBytes bytes (characterSize character) maximum) bytes =
      addBytes maximum bytes (cs.map characterSize) := by
    induction cs generalizing bytes with
    | nil => rfl
    | cons c cs ih =>
      rw [List.foldlM_cons, List.map_cons, ← List.singleton_append, addBytes_append,
        addExternalFindingBytes_eq]
      simp only [ih]
  rw [addJsonStringEncodedLen, stringSizes, ← List.singleton_append, addBytes_append,
    addExternalFindingBytes_eq]
  simp only [hfold]

def Frame.sizes : Frame → List Nat
  | .value v => valueSizes v
  | .array values => itemSizes values
  | .object values => memberSizes values

theorem charge_then (maximum bytes additional : Nat) (sizes : List Nat) :
    (addExternalFindingBytes bytes additional maximum >>= fun bytes =>
      addBytes maximum bytes sizes) = addBytes maximum bytes (additional :: sizes) := by
  rw [addExternalFindingBytes_eq, ← addBytes_append, List.singleton_append]

theorem chargeString_then (maximum bytes : Nat) (s : String) (sizes : List Nat) :
    (addJsonStringEncodedLen s bytes maximum >>= fun bytes => addBytes maximum bytes sizes) =
      addBytes maximum bytes (stringSizes s ++ sizes) := by
  rw [addJsonStringEncodedLen_eq, ← addBytes_append]

/-- The stack is charged frame by frame. -/
theorem countFrames_eq (maximum : Nat) (pending : List Frame) (bytes : Nat) :
    countFrames maximum pending bytes = addBytes maximum bytes (pending.flatMap Frame.sizes) := by
  fun_induction countFrames maximum pending bytes with
  | case1 => rfl
  | case2 pending bytes ih => simp only [ih, charge_then]; rfl
  | case3 pending bytes ih => simp only [ih, charge_then]; rfl
  | case4 pending bytes ih => simp only [ih, charge_then]; rfl
  | case5 literal pending bytes ih => simp only [ih, charge_then]; rfl
  | case6 s pending bytes ih => simp only [ih, chargeString_then]; rfl
  | case7 values pending bytes ih => simp only [ih, charge_then]; rfl
  | case8 values pending bytes ih => simp only [ih, charge_then]; rfl
  | case9 pending bytes ih => exact ih
  | case10 v values pending bytes ih =>
    rw [ih]
    simp only [List.flatMap_cons, Frame.sizes, itemSizes, List.append_assoc]
  | case11 pending bytes ih => exact ih
  | case12 key v values pending bytes ih =>
    simp only [ih, chargeString_then, List.flatMap_cons, Frame.sizes, memberSizes,
      List.append_assoc]

theorem addJsonEncodedLen_eq (value : Value) (bytes maximum : Nat) :
    addJsonEncodedLen value bytes maximum = addBytes maximum bytes (valueSizes value) := by
  rw [addJsonEncodedLen, countFrames_eq, List.flatMap_singleton, Frame.sizes]

theorem addExternalFindingsBytes_eq (batch : ExternalFindingBatch) (bytes maximum : Nat) :
    addExternalFindingsBytes batch bytes maximum =
      addBytes maximum bytes (batch.findings.flatMap findingSizes) := by
  unfold addExternalFindingsBytes
  simp only [addJsonEncodedLen_eq, charge_then]
  induction batch.findings generalizing bytes with
  | nil => rfl
  | cons finding findings ih =>
    rw [List.foldlM_cons, List.flatMap_cons, addBytes_append, findingSizes]
    simp only [ih]

/-- The sizes charged to a batch are those its bound is stated with. -/
theorem incomingExternalFindingBatchBytes_eq (batch : ExternalFindingBatch) (maximum : Nat) :
    incomingExternalFindingBatchBytes batch maximum =
      Schemaform.incomingExternalFindingBatchBytes batch maximum := by
  unfold incomingExternalFindingBatchBytes Schemaform.incomingExternalFindingBatchBytes
  simp only [addExternalFindingsBytes_eq, charge_then, batchSizes]

theorem activeExternalFindingBatchBytes_eq (batch : ExternalFindingBatch) (maximum : Nat) :
    activeExternalFindingBatchBytes batch maximum =
      Schemaform.activeExternalFindingBatchBytes batch maximum := by
  unfold activeExternalFindingBatchBytes Schemaform.activeExternalFindingBatchBytes
  simp only [addExternalFindingsBytes_eq, charge_then, batchSizes]

/-! ## The sum of the charges -/

theorem addBytes_ok {maximum bytes : Nat} {sizes : List Nat} (h : bytes + sizes.sum ≤ maximum) :
    addBytes maximum bytes sizes = .ok (bytes + sizes.sum) := by
  induction sizes generalizing bytes with
  | nil => rfl
  | cons size sizes ih =>
    rw [List.sum_cons] at h ⊢
    rw [addBytes, if_neg (by omega), ih (by omega), Nat.add_assoc]

theorem addBytes_error {maximum bytes : Nat} {sizes : List Nat} (hbytes : bytes ≤ maximum)
    (h : maximum < bytes + sizes.sum) :
    ∃ observed, addBytes maximum bytes sizes = .error observed ∧ maximum < observed := by
  induction sizes generalizing bytes with
  | nil =>
    rw [List.sum_nil] at h
    omega
  | cons size sizes ih =>
    rw [List.sum_cons] at h
    rw [addBytes]
    split
    · rename_i hover
      exact ⟨_, rfl, hover⟩
    · exact ih (by omega) (by omega)

/-- The bytes of a list of characters. -/
def byteLength (cs : List Char) : Nat := (cs.map Char.utf8Size).sum

theorem byteLength_append (cs ds : List Char) :
    byteLength (cs ++ ds) = byteLength cs + byteLength ds := by
  simp [byteLength]

theorem byteLength_cons (c : Char) (cs : List Char) :
    byteLength (c :: cs) = c.utf8Size + byteLength cs := by
  simp [byteLength]

theorem utf8ByteSize_ofList (cs : List Char) :
    (String.ofList cs).utf8ByteSize = byteLength cs := by
  induction cs with
  | nil => rfl
  | cons c cs ih =>
    rw [String.ofList_cons, String.utf8ByteSize_append, String.utf8ByteSize_singleton, ih,
      byteLength_cons]

theorem byteLength_toList (s : String) : byteLength s.toList = s.utf8ByteSize := by
  rw [← utf8ByteSize_ofList, String.ofList_toList]

theorem utf8Size_hexDigit (n : Nat) : (hexDigit n).utf8Size = 1 := by
  have hdigits : ("0123456789abcdef".toList.all fun c => c.utf8Size == 1) = true := rfl
  rw [hexDigit, List.getD_eq_getElem?_getD]
  cases hn : "0123456789abcdef".toList[n]? with
  | none => rfl
  | some c => exact beq_iff_eq.mp (List.all_eq_true.mp hdigits c (List.mem_of_getElem? hn))

theorem byteLength_encodeChar (c : Char) : byteLength (encodeChar c) = characterSize c := by
  by_cases hshort : c = '"' ∨ c = '\\' ∨ c = '\x08' ∨ c = '\t' ∨ c = '\n' ∨ c = '\x0c' ∨ c = '\r'
  · rcases hshort with rfl | rfl | rfl | rfl | rfl | rfl | rfl <;> rfl
  · rw [characterSize, if_neg hshort]
    simp only [not_or] at hshort
    obtain ⟨hquote, hslash, hb, ht, hn, hf, hr⟩ := hshort
    rw [encodeChar, if_neg hquote, if_neg hslash, if_neg hb, if_neg hf, if_neg hn, if_neg hr,
      if_neg ht]
    split
    · simp only [byteLength, List.map_cons, List.map_nil, utf8Size_hexDigit, List.sum_cons,
        List.sum_nil]
      rfl
    · simp [byteLength]

theorem stringSizes_sum (s : String) : (stringSizes s).sum = byteLength (encodeString s) := by
  have hchars (cs : List Char) :
      byteLength (cs.flatMap encodeChar) = (cs.map characterSize).sum := by
    induction cs with
    | nil => rfl
    | cons c cs ih =>
      rw [List.flatMap_cons, byteLength_append, ih, byteLength_encodeChar, List.map_cons,
        List.sum_cons]
  rw [stringSizes, encodeString, byteLength_cons, byteLength_append, hchars, List.sum_cons]
  have hquote : '"'.utf8Size = 1 := rfl
  have hclose : byteLength ['"'] = 1 := rfl
  omega

theorem itemSizes_sum {values : List Value}
    (ih : ∀ v ∈ values, (valueSizes v).sum = byteLength v.encode) :
    (itemSizes values).sum + (values.length - 1) = byteLength (Value.encodeItems values) := by
  induction values with
  | nil => rfl
  | cons v values ihv =>
    obtain ⟨hv, hvs⟩ := List.forall_mem_cons.mp ih
    have hrest := ihv hvs
    rw [itemSizes, List.sum_append, hv]
    cases values with
    | nil => simp [itemSizes, Value.encodeItems]
    | cons w ws =>
      have hcomma : ','.utf8Size = 1 := rfl
      rw [Value.encodeItems, byteLength_append, byteLength_cons, ← hrest]
      · simp only [List.length_cons]
        omega
      · simp

theorem memberSizes_sum {values : List (String × Value)}
    (ih : ∀ e ∈ values, (valueSizes e.2).sum = byteLength e.2.encode) :
    (memberSizes values).sum + (values.length - 1) + values.length =
      byteLength (Value.encodeMembers values) := by
  have hcomma : ','.utf8Size = 1 := rfl
  have hcolon : ':'.utf8Size = 1 := rfl
  induction values with
  | nil => rfl
  | cons e values ihe =>
    obtain ⟨key, v⟩ := e
    obtain ⟨hv, hvs⟩ := List.forall_mem_cons.mp ih
    have hrest := ihe hvs
    rw [memberSizes, List.sum_append, List.sum_append, hv, stringSizes_sum]
    cases values with
    | nil =>
      rw [Value.encodeMembers, byteLength_append, byteLength_cons]
      simp only [memberSizes, List.sum_nil, List.length_cons, List.length_nil]
      omega
    | cons w ws =>
      rw [Value.encodeMembers, byteLength_append, byteLength_cons, byteLength_append,
        byteLength_cons, ← hrest]
      · simp only [List.length_cons]
        omega
      · simp

/-- What is charged for a value is its compact encoding. -/
theorem valueSizes_sum (value : Value) : (valueSizes value).sum = value.text.utf8ByteSize := by
  rw [Value.text, utf8ByteSize_ofList]
  induction value using Value.induct with
  | null => rfl
  | bool b => cases b <;> rfl
  | number literal => rw [valueSizes, Value.encode, byteLength_toList, List.sum_singleton]
  | string s => rw [valueSizes, Value.encode, stringSizes_sum]
  | array values ih =>
    have hitems := itemSizes_sum ih
    have hopen : '['.utf8Size = 1 := rfl
    have hclose : byteLength [']'] = 1 := rfl
    rw [valueSizes, Value.encode, byteLength_cons, byteLength_append, List.sum_cons]
    omega
  | object values ih =>
    have hmembers := memberSizes_sum ih
    have hopen : '{'.utf8Size = 1 := rfl
    have hclose : byteLength ['}'] = 1 := rfl
    rw [valueSizes, Value.encode, byteLength_cons, byteLength_append, List.sum_cons]
    omega

/-! ## The bytes of a batch -/

def findingBytes (finding : ExternalFinding) : Nat :=
  finding.code.utf8ByteSize + finding.instanceLocation.text.utf8ByteSize +
    finding.parameters.text.utf8ByteSize

def batchBytes (batch : ExternalFindingBatch) : Nat :=
  batch.source.utf8ByteSize + (batch.findings.map findingBytes).sum

theorem batchSizes_sum (batch : ExternalFindingBatch) :
    (batchSizes batch).sum = batchBytes batch := by
  have hfindings (findings : List ExternalFinding) :
      (findings.flatMap findingSizes).sum = (findings.map findingBytes).sum := by
    induction findings with
    | nil => rfl
    | cons finding findings ih =>
      rw [List.flatMap_cons, List.sum_append, ih, List.map_cons, List.sum_cons, findingSizes,
        List.sum_cons, List.sum_cons, valueSizes_sum, findingBytes]
      omega
  rw [batchSizes, List.sum_cons, hfindings, batchBytes]

/-- For every value, every total so far and every maximum; and so for every batch. -/
theorem encoded_length_exact (maximum : Nat) :
    (∀ (value : Value) (bytes : Nat), bytes ≤ maximum →
      if bytes + value.text.utf8ByteSize ≤ maximum then
        addJsonEncodedLen value bytes maximum = .ok (bytes + value.text.utf8ByteSize)
      else ∃ observed, addJsonEncodedLen value bytes maximum = .error observed ∧
        maximum < observed) ∧
    (∀ batch : ExternalFindingBatch,
      if batchBytes batch ≤ maximum then
        incomingExternalFindingBatchBytes batch maximum = .ok (batchBytes batch)
      else ∃ observed, incomingExternalFindingBatchBytes batch maximum = .error observed ∧
        maximum < observed) ∧
    ∀ batch : ExternalFindingBatch,
      if batch.findings = [] then activeExternalFindingBatchBytes batch maximum = .ok 0
      else activeExternalFindingBatchBytes batch maximum =
        incomingExternalFindingBatchBytes batch maximum := by
  have hcount (bytes : Nat) (hbytes : bytes ≤ maximum) (sizes : List Nat) :
      if bytes + sizes.sum ≤ maximum then
        addBytes maximum bytes sizes = .ok (bytes + sizes.sum)
      else ∃ observed, addBytes maximum bytes sizes = .error observed ∧ maximum < observed := by
    split
    · rename_i h
      exact addBytes_ok h
    · rename_i h
      exact addBytes_error hbytes (Nat.lt_of_not_le h)
  refine ⟨fun value bytes hbytes => ?_, fun batch => ?_, fun batch => ?_⟩
  · rw [addJsonEncodedLen_eq, ← valueSizes_sum]
    exact hcount bytes hbytes (valueSizes value)
  · have hbatch := hcount 0 (Nat.zero_le _) (batchSizes batch)
    rw [Nat.zero_add, batchSizes_sum] at hbatch
    rw [incomingExternalFindingBatchBytes_eq]
    exact hbatch
  · split
    · rename_i h
      rw [activeExternalFindingBatchBytes, h]
      rfl
    · rename_i h
      rw [activeExternalFindingBatchBytes, if_neg (by simpa using h)]
      rfl

def escaped : Value := .object [("a\n", .array [.null, .string "é"])]

theorem encoded_length_exact_escaped : addJsonEncodedLen escaped 3 100 = .ok 22 := by
  have hexact := (encoded_length_exact 100).1 escaped 3 (by decide)
  have hsize : escaped.text.utf8ByteSize = 19 := by decide +kernel
  rw [hsize, if_pos (by decide)] at hexact
  exact hexact

end Schemaform.EncodedLength
