import Schemaform.Source.Tokens

/-!
# Source.Counts

What the scans of a text measure.

* `tokenCount`: one token for each value and for each key.
* `foldl_tokens`, `scan_tokens`: a scan over the tokens of a value adds the value's own measures.
* `sourceMetrics_text`, `sourceValueMetrics_text`: the measures of the raw value of a text.
-/

namespace Schemaform

/-! ## Tokens of a value -/

namespace Source

/-- One token for each value and one for each key. -/
def tokenCount (v : Value) : Nat := v.nodeCount + v.memberCount

theorem tokenCount_array (items : List Value) :
    tokenCount (.array items) = 1 + (items.map tokenCount).sum := by
  unfold tokenCount
  rw [Value.nodeCount_array, Value.memberCount_array, List.sum_map_add]
  omega

theorem tokenCount_object (members : List (String × Value)) :
    tokenCount (.object members) =
      1 + members.length + (members.map fun e => tokenCount e.2).sum := by
  unfold tokenCount
  rw [Value.nodeCount_object, Value.memberCount_object, List.sum_map_add]
  omega

theorem foldl_tokens (v : Value) : ∀ metrics : SourceMetrics,
    v.tokens.foldl SourceMetrics.step metrics =
      ⟨metrics.tokens + tokenCount v, max metrics.depth (metrics.nesting + v.height),
        metrics.nesting⟩ := by
  induction v using Value.induct with
  | array items ih =>
    intro metrics
    have hitems : ∀ (l : List Value), (∀ v ∈ l, v ∈ items) → ∀ inner : SourceMetrics,
        inner.nesting = metrics.nesting + 1 → metrics.nesting ≤ inner.depth →
        (Value.itemsTokens l).foldl SourceMetrics.step inner =
          ⟨inner.tokens + (l.map tokenCount).sum,
            max inner.depth (metrics.nesting + Value.heightItems l), inner.nesting⟩ := by
      intro l
      induction l with
      | nil =>
        intro _ inner _ hdepth
        simp [Value.itemsTokens, Value.heightItems, hdepth]
      | cons v l ihl =>
        intro hl inner hnesting hdepth
        have hnext := ihl (fun w hw => hl w (List.mem_cons_of_mem _ hw))
          ⟨inner.tokens + tokenCount v, max inner.depth (inner.nesting + v.height), inner.nesting⟩
          hnesting (hdepth.trans (Nat.le_max_left _ _))
        rw [Value.itemsTokens, List.foldl_append, ih v (hl v List.mem_cons_self) inner, hnext]
        simp only [Value.heightItems, List.map_cons, List.sum_cons, SourceMetrics.mk.injEq,
          hnesting, and_true]
        omega
    have hin := hitems items (fun _ h => h) metrics.enter rfl (Nat.le_max_right _ _)
    rw [Value.tokens, List.foldl_cons, List.foldl_append]
    show List.foldl _ (List.foldl _ metrics.enter _) _ = _
    rw [hin, tokenCount_array]
    simp only [List.foldl_cons, List.foldl_nil, SourceMetrics.step, SourceMetrics.leave,
      SourceMetrics.enter, SourceMetrics.token, Value.height, SourceMetrics.mk.injEq]
    omega
  | object members ih =>
    intro metrics
    have hmembers : ∀ (l : List (String × Value)), (∀ e ∈ l, e ∈ members) →
        ∀ inner : SourceMetrics, inner.nesting = metrics.nesting + 1 →
        metrics.nesting ≤ inner.depth →
        (Value.membersTokens l).foldl SourceMetrics.step inner =
          ⟨inner.tokens + l.length + (l.map fun e => tokenCount e.2).sum,
            max inner.depth (metrics.nesting + Value.heightMembers l), inner.nesting⟩ := by
      intro l
      induction l with
      | nil =>
        intro _ inner _ hdepth
        simp [Value.membersTokens, Value.heightMembers, hdepth]
      | cons e l ihl =>
        intro hl inner hnesting hdepth
        rw [Value.membersTokens, List.foldl_cons, List.foldl_append]
        show List.foldl _ (List.foldl _ inner.token _) _ = _
        have hkey : metrics.nesting ≤ inner.token.depth := hdepth.trans (Nat.le_max_left _ _)
        have hnext := ihl (fun d hd => hl d (List.mem_cons_of_mem _ hd))
          ⟨inner.tokens + 1 + tokenCount e.2,
            max inner.token.depth (inner.nesting + e.2.height), inner.nesting⟩
          hnesting (hkey.trans (Nat.le_max_left _ _))
        rw [ih e (hl e List.mem_cons_self) inner.token]
        refine hnext.trans ?_
        simp only [Value.heightMembers, List.map_cons, List.sum_cons, List.length_cons,
          SourceMetrics.token, SourceMetrics.mk.injEq, hnesting, and_true]
        omega
    have hin := hmembers members (fun _ h => h) metrics.enter rfl (Nat.le_max_right _ _)
    rw [Value.tokens, List.foldl_cons, List.foldl_append]
    show List.foldl _ (List.foldl _ metrics.enter _) _ = _
    rw [hin, tokenCount_object]
    simp only [List.foldl_cons, List.foldl_nil, SourceMetrics.step, SourceMetrics.leave,
      SourceMetrics.enter, SourceMetrics.token, Value.height, SourceMetrics.mk.injEq]
    omega
  | _ => intro metrics; rfl

theorem sourceMetrics_text (text : Item Syntax) :
    sourceMetrics text.bytes = (tokenCount text.raw, text.raw.height) := by
  have hscan := sourceMetricsFrom_eq text.bytes 0 {}
  rw [List.drop_zero, lex_text, foldl_tokens] at hscan
  rw [sourceMetrics, hscan]
  simp

/-- What a value adds to the measures of the second scan. -/
def SourceValueMetrics.add (metrics : SourceValueMetrics)
    (nodes members collectionLength scalarBytes : Nat) : SourceValueMetrics :=
  ⟨metrics.nodes + nodes, metrics.members + members,
    max metrics.collectionLength collectionLength, max metrics.scalarBytes scalarBytes⟩

theorem scan_tokens (v : Value) : ∀ (metrics : SourceValueMetrics) (collections : Collections),
    v.tokens.foldl ValueScan.step ⟨metrics, collections⟩ =
      ⟨metrics.add v.nodeCount v.memberCount v.longestCollection v.longestScalar,
        collections.count 0x5B⟩ := by
  induction v using Value.induct with
  | array items ih =>
    intro metrics collections
    have hitems : ∀ (l : List Value), (∀ v ∈ l, v ∈ items) →
        ∀ (inner : SourceValueMetrics) (length : Nat) (outer : Collections),
        (Value.itemsTokens l).foldl ValueScan.step ⟨inner, (0x5B, length) :: outer⟩ =
          ⟨inner.add (l.map Value.nodeCount).sum (l.map Value.memberCount).sum
            (Value.peakItems Value.collectionLength (fun _ => 0) l)
            (Value.peakItems Value.scalarBytes String.utf8ByteSize l),
            (0x5B, length + l.length) :: outer⟩ := by
      intro l
      induction l with
      | nil =>
        intro _ inner length outer
        simp [Value.itemsTokens, Value.peakItems, SourceValueMetrics.add]
      | cons v l ihl =>
        intro hl inner length outer
        rw [Value.itemsTokens, List.foldl_append, ih v (hl v List.mem_cons_self)]
        show List.foldl _ (ValueScan.mk _ ((0x5B, length + 1) :: outer)) _ = _
        rw [ihl fun w hw => hl w (List.mem_cons_of_mem _ hw)]
        simp only [SourceValueMetrics.add, Value.peakItems, List.map_cons, List.sum_cons,
          List.length_cons, ValueScan.mk.injEq, SourceValueMetrics.mk.injEq,
          Value.longestCollection, Value.longestScalar]
        refine ⟨⟨by omega, by omega, by omega, by omega⟩, ?_⟩
        rw [Nat.add_assoc, Nat.add_comm 1]
    rw [Value.tokens, List.foldl_cons, List.foldl_append]
    show List.foldl _ (List.foldl _
      (ValueScan.mk metrics.node ((0x5B, 0) :: collections.count 0x5B)) _) _ = _
    rw [hitems items (fun _ h => h)]
    simp only [List.foldl_cons, List.foldl_nil, ValueScan.step, SourceValueMetrics.collection,
      SourceValueMetrics.add, SourceValueMetrics.node, ValueScan.mk.injEq,
      SourceValueMetrics.mk.injEq, Value.nodeCount_array, Value.memberCount_array,
      Value.longestCollection, Value.longestScalar, Value.peak, Value.collectionLength,
      Value.scalarBytes, and_true]
    omega
  | object members ih =>
    intro metrics collections
    have hmembers : ∀ (l : List (String × Value)), (∀ e ∈ l, e ∈ members) →
        ∀ (inner : SourceValueMetrics) (length : Nat) (outer : Collections),
        (Value.membersTokens l).foldl ValueScan.step ⟨inner, (0x7B, length) :: outer⟩ =
          ⟨inner.add (l.map fun e => e.2.nodeCount).sum
            (l.length + (l.map fun e => e.2.memberCount).sum)
            (Value.peakMembers Value.collectionLength (fun _ => 0) l)
            (Value.peakMembers Value.scalarBytes String.utf8ByteSize l),
            (0x7B, length + l.length) :: outer⟩ := by
      intro l
      induction l with
      | nil =>
        intro _ inner length outer
        simp [Value.membersTokens, Value.peakMembers, SourceValueMetrics.add]
      | cons e l ihl =>
        intro hl inner length outer
        rw [Value.membersTokens, List.foldl_cons, List.foldl_append]
        show List.foldl _ (List.foldl _ (ValueScan.mk (inner.member.scalar e.1.utf8ByteSize)
          ((0x7B, length + 1) :: outer)) _) _ = _
        rw [ih e (hl e List.mem_cons_self)]
        show List.foldl _ (ValueScan.mk _ ((0x7B, length + 1) :: outer)) _ = _
        rw [ihl fun d hd => hl d (List.mem_cons_of_mem _ hd)]
        simp only [SourceValueMetrics.add, SourceValueMetrics.member, SourceValueMetrics.scalar,
          Value.peakMembers, List.map_cons, List.sum_cons, List.length_cons, ValueScan.mk.injEq,
          SourceValueMetrics.mk.injEq, Value.longestCollection, Value.longestScalar]
        refine ⟨⟨by omega, by omega, by omega, by omega⟩, ?_⟩
        rw [Nat.add_assoc, Nat.add_comm 1]
    rw [Value.tokens, List.foldl_cons, List.foldl_append]
    show List.foldl _ (List.foldl _
      (ValueScan.mk metrics.node ((0x7B, 0) :: collections.count 0x5B)) _) _ = _
    rw [hmembers members (fun _ h => h)]
    simp only [List.foldl_cons, List.foldl_nil, ValueScan.step, SourceValueMetrics.collection,
      SourceValueMetrics.add, SourceValueMetrics.node, ValueScan.mk.injEq,
      SourceValueMetrics.mk.injEq, Value.nodeCount_object, Value.memberCount_object,
      Value.longestCollection, Value.longestScalar, Value.peak, Value.collectionLength,
      Value.scalarBytes, and_true, true_and]
    omega
  | _ =>
    intro metrics collections
    simp [Value.tokens, ValueScan.step, SourceValueMetrics.node, SourceValueMetrics.scalar,
      SourceValueMetrics.add, Value.nodeCount, Value.memberCount, Value.total, Value.width,
      Value.longestCollection, Value.longestScalar, Value.peak, Value.collectionLength,
      Value.scalarBytes]

theorem sourceValueMetrics_text (text : Item Syntax) : sourceValueMetrics text.bytes =
    some ⟨text.raw.nodeCount, text.raw.memberCount, text.raw.longestCollection,
      text.raw.longestScalar⟩ := by
  have hscan := sourceValueMetricsFrom_eq text.bytes 0 {} []
  rw [List.drop_zero, lex_text, scan_tokens] at hscan
  rw [sourceValueMetrics, hscan]
  simp [SourceValueMetrics.add, Collections.count, ValueScan.finish]

end Source

end Schemaform
