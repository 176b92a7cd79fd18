import Schemaform.Resources.Prepare

/-!
# Resources.Places

What the traversals read of the documents, which rewriting references does not change, and the
places they may come to.

* `SameDocuments`: documents that differ in texts under `$ref` only.
* `identityAt`, `childrenAt`: an `$id` and the subschemas, the same in all such documents.
* `baseUris`: the resources a place may be read under, by the `$id`s on the way to it.
* `places`: every place under every such resource, finitely many.
-/

namespace Schemaform.Resources

/-! ## Readings -/

theorem ref_notNumeral : Token.toNumeral "$ref" = none := by decide

theorem textMember_alike {v w : Value} (h : Value.Alike "$ref" v w) {keyword : String}
    (hkeyword : keyword ≠ "$ref") : textMember v keyword = textMember w keyword := by
  have hget (u : Value) : textMember (u.forget "$ref") keyword = textMember u keyword := by
    cases u with
    | object members =>
      rw [textMember, textMember, Value.forget, Value.get, Value.get, Value.get_forgetMembers]
      cases SortedMap.get keyword members with
      | none => rfl
      | some c =>
        rw [Option.map_some, Value.forgetAt_of_ne hkeyword]
        cases c <;> rfl
    | _ => rfl
  have htext (u : Value) (hu : u.isString = true) : textMember u keyword = none := by
    cases u <;> first | rfl | cases hu
  rcases h with h | ⟨hv, hw⟩
  · rw [← hget v, h, hget w]
  · rw [htext v hv, htext w hw]

theorem keywordChildren_forget (maps arrays singles : List String) (v : Value) (parent : Pointer)
    (hmaps : "$ref" ∉ maps) (harrays : "$ref" ∉ arrays) :
    keywordChildren maps arrays singles (v.forget "$ref") parent =
      keywordChildren maps arrays singles v parent := by
  cases v with
  | object members =>
    have hmap (keyword : String) (hkeyword : keyword ∈ maps) :
        memberChildren (Value.forgetMembers "$ref" members) parent keyword =
          memberChildren members parent keyword := by
      rw [memberChildren, memberChildren, Value.get_forgetMembers]
      cases SortedMap.get keyword members with
      | none => rfl
      | some c =>
        rw [Option.map_some, Value.forgetAt_of_ne (ne_of_mem_of_not_mem hkeyword hmaps)]
        cases c with
        | object values => simp [Value.forget, Value.forgetMembers_eq]
        | _ => rfl
    have harray (keyword : String) (hkeyword : keyword ∈ arrays) :
        itemChildren (Value.forgetMembers "$ref" members) parent keyword =
          itemChildren members parent keyword := by
      rw [itemChildren, itemChildren, Value.get_forgetMembers]
      cases SortedMap.get keyword members with
      | none => rfl
      | some c =>
        rw [Option.map_some, Value.forgetAt_of_ne (ne_of_mem_of_not_mem hkeyword harrays)]
        cases c with
        | array values => simp [Value.forget, Value.forgetItems_eq]
        | _ => rfl
    have hsingle : ∀ keyword,
        (SortedMap.get keyword (Value.forgetMembers "$ref" members)).isSome =
          (SortedMap.get keyword members).isSome := by
      intro keyword
      rw [Value.get_forgetMembers, Option.isSome_map]
    simp only [Value.forget, keywordChildren, hsingle]
    rw [List.flatMap_congr hmap, List.flatMap_congr harray]
  | _ => rfl

theorem schemaChildren_alike {v w : Value} (h : Value.Alike "$ref" v w) (parent : Pointer) :
    schemaChildren v parent = schemaChildren w parent := by
  have hforget (u : Value) : schemaChildren (u.forget "$ref") parent = schemaChildren u parent :=
    keywordChildren_forget _ _ _ u parent (by decide) (by decide)
  have htext (u : Value) (hu : u.isString = true) : schemaChildren u parent = [] := by
    cases u <;> first | rfl | cases hu
  rcases h with h | ⟨hv, hw⟩
  · rw [← hforget v, h, hforget w]
  · rw [htext v hv, htext w hw]

/-! ## Documents with other references -/

def ResourceDocument.forgetReferences (document : ResourceDocument) : ResourceDocument :=
  { document with document := document.document.forget "$ref" }

/-- The same documents but for the texts of references. -/
def SameDocuments (documents documents' : List ResourceDocument) : Prop :=
  documents.map ResourceDocument.forgetReferences = documents'.map ResourceDocument.forgetReferences

def schemaIn (documents : List ResourceDocument) (documentIndex : Nat) (pointer : Pointer) :
    Option Value :=
  documents[documentIndex]?.bind fun document => pointer.resolve document.document

def identityAt (documents : List ResourceDocument) (documentIndex : Nat) (pointer : Pointer) :
    Option String :=
  (schemaIn documents documentIndex pointer).bind (textMember · "$id")

def childrenAt (documents : List ResourceDocument) (documentIndex : Nat) (pointer : Pointer) :
    List Pointer :=
  ((schemaIn documents documentIndex pointer).map (schemaChildren · pointer)).getD []

namespace SameDocuments

variable {documents documents' : List ResourceDocument} {documentIndex : Nat} {pointer : Pointer}

theorem symm (h : SameDocuments documents documents') : SameDocuments documents' documents :=
  Eq.symm h

theorem trans {documents'' : List ResourceDocument} (h : SameDocuments documents documents')
    (h' : SameDocuments documents' documents'') : SameDocuments documents documents'' :=
  Eq.trans h h'

theorem length (h : SameDocuments documents documents') : documents.length = documents'.length := by
  simpa using congrArg List.length h

theorem document (h : SameDocuments documents documents') {document : ResourceDocument}
    (hd : documents[documentIndex]? = some document) :
    ∃ document', documents'[documentIndex]? = some document' ∧
      document'.origin = document.origin ∧ document'.retrievalUri = document.retrievalUri ∧
      document'.document.forget "$ref" = document.document.forget "$ref" := by
  have hget := congrArg (·[documentIndex]?) h
  simp only [List.getElem?_map, hd, Option.map_some] at hget
  obtain ⟨document', hd', heq⟩ := Option.map_eq_some_iff.mp hget.symm
  rw [ResourceDocument.forgetReferences, ResourceDocument.forgetReferences,
    ResourceDocument.mk.injEq] at heq
  exact ⟨document', hd', heq⟩

theorem schemaIn (h : SameDocuments documents documents') {schema : Value}
    (hs : schemaIn documents documentIndex pointer = some schema) :
    ∃ schema', Resources.schemaIn documents' documentIndex pointer = some schema' ∧
      Value.Alike "$ref" schema schema' := by
  obtain ⟨document, hd, hs⟩ := Option.bind_eq_some_iff.mp hs
  obtain ⟨document', hd', -, -, hforget⟩ := h.document hd
  obtain ⟨schema', hs', halike⟩ := (Value.Alike.resolve (v := document.document)
    (w := document'.document) ref_notNumeral (.inl hforget.symm)) hs
  exact ⟨schema', by rw [Resources.schemaIn, hd']; exact hs', halike⟩

theorem isSome (h : SameDocuments documents documents') (documentIndex : Nat) (pointer : Pointer) :
    (Resources.schemaIn documents documentIndex pointer).isSome =
      (Resources.schemaIn documents' documentIndex pointer).isSome := by
  rw [Bool.eq_iff_iff, Option.isSome_iff_exists, Option.isSome_iff_exists]
  constructor
  · intro hs
    obtain ⟨schema, hs⟩ := hs
    obtain ⟨schema', hs', -⟩ := h.schemaIn hs
    exact ⟨schema', hs'⟩
  · intro hs
    obtain ⟨schema, hs⟩ := hs
    obtain ⟨schema', hs', -⟩ := h.symm.schemaIn hs
    exact ⟨schema', hs'⟩

theorem identityAt (h : SameDocuments documents documents') :
    identityAt documents documentIndex pointer = identityAt documents' documentIndex pointer := by
  rw [Resources.identityAt, Resources.identityAt]
  cases hs : Resources.schemaIn documents documentIndex pointer with
  | none =>
    have hnone := h.isSome documentIndex pointer
    rw [hs, Option.isSome_none, eq_comm, Option.isSome_eq_false_iff, Option.isNone_iff_eq_none]
      at hnone
    rw [hnone]
  | some schema =>
    obtain ⟨schema', hs', halike⟩ := h.schemaIn hs
    rw [hs']
    exact textMember_alike halike (by decide)

theorem childrenAt (h : SameDocuments documents documents') :
    childrenAt documents documentIndex pointer = childrenAt documents' documentIndex pointer := by
  rw [Resources.childrenAt, Resources.childrenAt]
  cases hs : Resources.schemaIn documents documentIndex pointer with
  | none =>
    have hnone := h.isSome documentIndex pointer
    rw [hs, Option.isSome_none, eq_comm, Option.isSome_eq_false_iff, Option.isNone_iff_eq_none]
      at hnone
    rw [hnone]
  | some schema =>
    obtain ⟨schema', hs', halike⟩ := h.schemaIn hs
    rw [hs', Option.map_some, Option.map_some, schemaChildren_alike halike]

end SameDocuments

/-! ## Places -/

/-- The resources of the place a reversed pointer leads to: each `$id` on the way applies or not. -/
def baseUris (uris : UriRules) (documents : List ResourceDocument) (documentIndex : Nat)
    (retrievalUri : String) : List String → List String
  | [] => retrievalUri :: (uris.normalize retrievalUri).toList ++
      ((identityAt documents documentIndex []).bind (resolveResourceUri uris retrievalUri)).toList
  | token :: above =>
    let bases := baseUris uris documents documentIndex retrievalUri above
    bases ++ bases.filterMap fun base =>
      (identityAt documents documentIndex (token :: above).reverse).bind
        (resolveResourceUri uris base)

def basesAt (uris : UriRules) (documents : List ResourceDocument) (documentIndex : Nat)
    (pointer : Pointer) : List String :=
  match documents[documentIndex]? with
  | none => []
  | some document =>
    baseUris uris documents documentIndex document.retrievalUri pointer.reverse

section basesAt

variable {uris : UriRules} {documents : List ResourceDocument} {documentIndex : Nat}

theorem basesAt_append {pointer : Pointer} {base : String}
    (h : base ∈ basesAt uris documents documentIndex pointer) (rest : Pointer) :
    base ∈ basesAt uris documents documentIndex (pointer ++ rest) := by
  unfold basesAt at *
  cases hd : documents[documentIndex]? with
  | none =>
    rw [hd] at h
    cases h
  | some document =>
    simp only [hd] at *
    rw [List.reverse_append]
    induction rest.reverse with
    | nil => exact h
    | cons token above ih => exact List.mem_append_left _ ih

/-- An `$id` below a place that resolves against a resource of the place. -/
theorem basesAt_identity {pointer rest : Pointer} {base identity canonical : String}
    (h : base ∈ basesAt uris documents documentIndex pointer) (hrest : rest ≠ [])
    (hidentity : identityAt documents documentIndex (pointer ++ rest) = some identity)
    (hcanonical : resolveResourceUri uris base identity = some canonical) :
    canonical ∈ basesAt uris documents documentIndex (pointer ++ rest) := by
  obtain ⟨before, token, rfl⟩ : ∃ before token, rest = before ++ [token] :=
    ⟨rest.dropLast, rest.getLast hrest, (List.dropLast_append_getLast hrest).symm⟩
  have hbefore := basesAt_append h before
  rw [← List.append_assoc] at hidentity ⊢
  unfold basesAt at *
  cases hd : documents[documentIndex]? with
  | none =>
    rw [hd] at h
    cases h
  | some document =>
    simp only [hd] at *
    rw [List.reverse_append, List.reverse_singleton, List.singleton_append, baseUris]
    refine List.mem_append_right _ (List.mem_filterMap.mpr ⟨base, hbefore, ?_⟩)
    rw [List.reverse_cons, List.reverse_reverse, hidentity]
    exact hcanonical

end basesAt

def places (uris : UriRules) (documents : List ResourceDocument) : List SchemaKey :=
  documents.zipIdx.flatMap fun (document, documentIndex) =>
    (valuePointers document.document).flatMap fun pointer =>
      (basesAt uris documents documentIndex pointer).map fun base => (documentIndex, pointer, base)

theorem mem_places {uris : UriRules} {documents : List ResourceDocument} {documentIndex : Nat}
    {pointer : Pointer} {base : String}
    (hplace : (schemaIn documents documentIndex pointer).isSome = true)
    (hbase : base ∈ basesAt uris documents documentIndex pointer) :
    (documentIndex, pointer, base) ∈ places uris documents := by
  obtain ⟨schema, hschema⟩ := Option.isSome_iff_exists.mp hplace
  obtain ⟨document, hd, hschema⟩ := Option.bind_eq_some_iff.mp hschema
  refine List.mem_flatMap.mpr ⟨(document, documentIndex), ?_, ?_⟩
  · exact List.mem_zipIdx_iff_getElem?.mpr hd
  · refine List.mem_flatMap.mpr ⟨pointer, ?_, List.mem_map_of_mem hbase⟩
    exact mem_valuePointers (Option.isSome_iff_exists.mpr ⟨schema, hschema⟩)

/-- How many places a traversal has not come to. -/
def unseen (uris : UriRules) (documents : List ResourceDocument) (seen : List SchemaKey) : Nat :=
  (places uris documents).countP (· ∉ seen)

theorem unseen_mono {uris : UriRules} {documents : List ResourceDocument}
    {seen seen' : List SchemaKey} (h : ∀ key ∈ seen, key ∈ seen') :
    unseen uris documents seen' ≤ unseen uris documents seen := by
  refine List.countP_mono_left fun key _ hkey => ?_
  simp only [decide_eq_true_eq] at *
  exact fun hmem => hkey (h key hmem)

theorem unseen_cons_lt {uris : UriRules} {documents : List ResourceDocument}
    {seen : List SchemaKey} {key : SchemaKey} (hplace : key ∈ places uris documents)
    (hkey : key ∉ seen) :
    unseen uris documents (key :: seen) < unseen uris documents seen := by
  obtain ⟨before, after, hsplit⟩ := List.append_of_mem hplace
  unfold unseen
  rw [hsplit, List.countP_append, List.countP_append, List.countP_cons, List.countP_cons]
  have hmono (l : List SchemaKey) : l.countP (· ∉ key :: seen) ≤ l.countP (· ∉ seen) := by
    refine List.countP_mono_left fun k _ hk => ?_
    simp only [decide_eq_true_eq] at *
    exact fun hmem => hk (List.mem_cons_of_mem key hmem)
  have hbefore := hmono before
  have hafter := hmono after
  have hnew : decide (key ∉ key :: seen) = false := by simp
  have hold : decide (key ∉ seen) = true := by simpa using hkey
  rw [hnew, hold]
  simp only [Bool.false_eq_true, if_false, if_true]
  omega

end Schemaform.Resources
