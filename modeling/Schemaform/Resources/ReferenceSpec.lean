import Schemaform.Resources.ResolutionSpec

/-!
# Resources.ReferenceSpec

The texts of references: where they stand, how one is written over, and when what is written reads
back.

* `referenceAt`: the text of a reference in the documents.
* `rewrite_yields`: one text changes, no other.
* `ReadsBack`: what the URI library has to do with the names in the documents for a written
  reference to mean the place it was written for (`referenceText_resolves`).
-/

namespace Schemaform.Resources

open Association

/-! ## Texts -/

theorem child_eq_get {keyword : String} (hkeyword : Token.toNumeral keyword = none) (v : Value) :
    v.child keyword = v.get keyword := by
  cases v with
  | array items =>
    rw [Value.child, Token.indexFor, hkeyword]
    rfl
  | _ => rfl

theorem asString_eq_some {v : Value} {text : String} :
    v.asString = some text ↔ v = .string text := by
  cases v <;> simp [Value.asString]

/-- The text of a reference at a place. -/
def referenceAt (documents : List ResourceDocument) (documentIndex : Nat) (pointer : Pointer)
    (keyword : String) : Option String :=
  (schemaIn documents documentIndex pointer).bind (textMember · keyword)

theorem schemaIn_append (documents : List ResourceDocument) (documentIndex : Nat)
    (pointer rest : Pointer) : schemaIn documents documentIndex (pointer ++ rest) =
      (schemaIn documents documentIndex pointer).bind rest.resolve := by
  unfold schemaIn
  cases documents[documentIndex]? with
  | none => rfl
  | some document => exact Pointer.resolve_append pointer rest document.document

theorem referenceAt_eq_some {documents : List ResourceDocument} {documentIndex : Nat}
    {pointer : Pointer} {keyword text : String} (hkeyword : Token.toNumeral keyword = none) :
    referenceAt documents documentIndex pointer keyword = some text ↔
      schemaIn documents documentIndex (pointer ++ [keyword]) = some (.string text) := by
  have hmember (schema : Value) : textMember schema keyword = some text ↔
      Pointer.resolve [keyword] schema = some (.string text) := by
    rw [textMember, Pointer.resolve_cons, child_eq_get hkeyword]
    cases schema.get keyword with
    | none => simp
    | some value => simp [asString_eq_some]
  rw [schemaIn_append, referenceAt, Option.bind_eq_some_iff, Option.bind_eq_some_iff]
  exact exists_congr fun schema => and_congr_right fun _ => hmember schema

theorem referenceAt_same {documents documents' : List ResourceDocument}
    (h : SameDocuments documents documents') {documentIndex : Nat} {pointer : Pointer}
    {keyword : String} (hkeyword : keyword ≠ "$ref") :
    referenceAt documents documentIndex pointer keyword =
      referenceAt documents' documentIndex pointer keyword := by
  unfold referenceAt
  cases hs : schemaIn documents documentIndex pointer with
  | none =>
    have hnone := h.isSome documentIndex pointer
    rw [hs, Option.isSome_none, eq_comm, Option.isSome_eq_false_iff, Option.isNone_iff_eq_none]
      at hnone
    rw [hnone]
  | some schema =>
    obtain ⟨schema', hs', halike⟩ := h.schemaIn hs
    rw [hs']
    exact textMember_alike halike hkeyword

/-! ## Writing over a text -/

theorem text_of_modify {p q : Pointer} {v w : Value} {new text : String}
    (h : p.modify (fun _ => some (.string new)) v = some w)
    (hq : q.resolve w = some (.string text)) :
    q = p ∧ text = new ∨ q.resolve v = some (.string text) := by
  rcases Pointer.trichotomy p q with ⟨rest, rfl⟩ | ⟨token, rest, rfl⟩ | hapart
  · obtain ⟨c, c', hc, hf, hc'⟩ := Pointer.modify_at h
    obtain rfl : Value.string new = c' := Option.some.inj hf
    rw [Pointer.resolve_append, hc', Option.bind_some] at hq
    cases rest with
    | nil =>
      refine .inl ⟨List.append_nil p, ?_⟩
      have heq : Value.string new = .string text := Option.some.inj hq
      rw [Value.string.injEq] at heq
      exact heq.symm
    | cons token rest => cases hq
  · obtain ⟨c, c', hc, hmodify, hc'⟩ := Pointer.modify_above h
    obtain ⟨d, d', hd, -, rfl⟩ := Pointer.modify_cons_eq_some hmodify
    rw [hc'] at hq
    cases c with
    | object members => cases hq
    | array items =>
      rw [Value.setChild] at hq
      split at hq <;> cases hq
    | _ => cases hd
  · exact .inr (by rw [← Pointer.modify_apart h hapart]; exact hq)

namespace ResourceTables

variable {library : Library} {given : List ResourceDocument} {tables tables' : ResourceTables}

theorem WellFormed.of_documents (hinv : WellFormed library given tables)
    (hsame : SameDocuments given tables'.documents) (haliases : tables'.aliases = tables.aliases)
    (hlocations : tables'.identityLocations = tables.identityLocations)
    (hanchors : tables'.anchors = tables.anchors)
    (hindexed : tables'.indexedSchemas = tables.indexedSchemas) :
    WellFormed library given tables' := by
  obtain ⟨documents, aliases, identityLocations, anchors, indexedSchemas, traversal, references,
    root⟩ := tables'
  obtain rfl : aliases = _ := haliases
  obtain rfl : identityLocations = _ := hlocations
  obtain rfl : anchors = _ := hanchors
  obtain rfl : indexedSchemas = _ := hindexed
  refine ⟨⟨hsame, hinv.addressable, hinv.based, hinv.located, fun e he => ?_⟩, hinv.canonical,
    fun key hkey => ?_⟩
  · exact (hinv.anchored e he).grows fun _ _ h => h
  · obtain ⟨owner, howner⟩ := hinv.indexed key hkey
    exact ⟨owner, howner.registered, howner.resource, howner.document, howner.addressable,
      howner.below, howner.opened⟩

/-- What rewriting one reference leaves. -/
structure Rewrites (tables tables' : ResourceTables) (documentIndex : Nat) (pointer : Pointer)
    (text : String) : Prop where
  grows : Grows tables tables'
  sameAliases : tables'.aliases = tables.aliases
  sameIndexed : tables'.indexedSchemas = tables.indexedSchemas
  sameTraversal : tables'.qualificationTraversal = tables.qualificationTraversal
  sameReferences : tables'.referenceCount = tables.referenceCount
  texts : ∀ index place found, referenceAt tables'.documents index place "$ref" = some found →
    referenceAt tables.documents index place "$ref" = some found ∨
      index = documentIndex ∧ place = pointer ∧ found = text

theorem rewrite_yields (hinv : WellFormed library given tables) {documentIndex : Nat}
    {pointer : Pointer}
    (hreference : (referenceAt tables.documents documentIndex pointer "$ref").isSome = true)
    (text : String) :
    Yields (Qualification.rewrite tables documentIndex pointer text)
      (fun t => WellFormed library given t ∧ Rewrites tables t documentIndex pointer text)
      PrepareError.Reported := by
  obtain ⟨old, hold⟩ := Option.isSome_iff_exists.mp hreference
  rw [referenceAt_eq_some ref_notNumeral] at hold
  obtain ⟨document, hd, hold⟩ := Option.bind_eq_some_iff.mp hold
  unfold Qualification.rewrite
  refine (documentAt_yields hd).bind fun document' _ heq => ?_
  obtain rfl : document = document' := heq.symm
  refine (orInvalidGraph_yields _).bind fun value _ hvalue => ?_
  have hforget := Value.forget_modify ref_notNumeral hvalue hold
  have hlt : documentIndex < tables.documents.length :=
    (List.getElem?_eq_some_iff.mp hd).1
  have hsame : SameDocuments tables.documents
      (tables.documents.set documentIndex { document with document := value }) := by
    unfold SameDocuments
    refine List.ext_getElem? fun index => ?_
    rw [List.getElem?_map, List.getElem?_map]
    by_cases hindex : documentIndex = index
    · subst hindex
      rw [List.getElem?_set_self hlt, hd]
      simp [ResourceDocument.forgetReferences, hforget]
    · rw [List.getElem?_set_ne hindex]
  refine ⟨hinv.of_documents (hinv.documents.trans hsame) rfl rfl rfl rfl,
    ⟨hsame, fun _ _ h => h, fun _ _ h => h, fun _ h => h, rfl⟩, rfl, rfl, rfl, rfl, ?_⟩
  intro index place found hfound
  rw [referenceAt_eq_some ref_notNumeral] at hfound ⊢
  by_cases hindex : documentIndex = index
  · subst hindex
    rw [schemaIn, List.getElem?_set_self hlt] at hfound
    rcases text_of_modify hvalue hfound with ⟨hplace, rfl⟩ | hfound
    · refine .inr ⟨rfl, ?_, rfl⟩
      exact List.append_cancel_right hplace
    · refine .inl ?_
      rw [schemaIn, hd]
      exact hfound
  · refine .inl ?_
    rw [schemaIn, List.getElem?_set_ne hindex] at hfound
    exact hfound

end ResourceTables

/-! ## Reading back -/

/-- References written for places of the documents read as such, whatever the base: their
resources are absolute and their names need no encoding. -/
def ReadsBack (library : Library) (given : List ResourceDocument) : Prop :=
  ∀ base resource documentIndex root rest,
    (∃ index place, (index, place, base) ∈ places library.uris given) →
    resource ∈ basesAt library.uris given documentIndex root →
    (schemaIn given documentIndex (root ++ rest)).isSome = true →
    ∃ resolved,
      library.uris.resolveAgainst base (Qualification.referenceText resource rest) = some resolved ∧
      library.uris.normalize (splitFragment resolved).1 = some resource ∧
      if rest = [] then (splitFragment resolved).2 = ""
      else (splitFragment resolved).2.toList.head? = some '/' ∧
        (decodeUriFragment (splitFragment resolved).2).bind Pointer.parse = some rest

/-- One written reference against one base. -/
def readsBackAt (uris : UriRules) (base resource : String) (rest : Pointer) : Bool :=
  (uris.resolveAgainst base (Qualification.referenceText resource rest)).any fun resolved =>
    decide (uris.normalize (splitFragment resolved).1 = some resource) &&
      if rest = [] then decide ((splitFragment resolved).2 = "")
      else decide ((splitFragment resolved).2.toList.head? = some '/') &&
        decide ((decodeUriFragment (splitFragment resolved).2).bind Pointer.parse = some rest)

def readsBackCheck (library : Library) (given : List ResourceDocument) : Bool :=
  (places library.uris given).all fun (_, _, base) =>
    given.zipIdx.all fun (document, documentIndex) =>
      (valuePointers document.document).all fun pointer =>
        (List.range (pointer.length + 1)).all fun n =>
          (basesAt library.uris given documentIndex (pointer.take n)).all fun resource =>
            readsBackAt library.uris base resource (pointer.drop n)

theorem readsBack_of_check {library : Library} {given : List ResourceDocument}
    (h : readsBackCheck library given = true) : ReadsBack library given := by
  intro base resource documentIndex root rest hbase hresource hplace
  obtain ⟨index, place, hbase⟩ := hbase
  obtain ⟨schema, hschema⟩ := Option.isSome_iff_exists.mp hplace
  obtain ⟨document, hd, hresolve⟩ := Option.bind_eq_some_iff.mp hschema
  have hat : readsBackAt library.uris base resource rest = true := by
    have hdocument := List.all_eq_true.mp (List.all_eq_true.mp h _ hbase) (document, documentIndex)
      (List.mem_zipIdx_iff_getElem?.mpr hd)
    have hpointer := List.all_eq_true.mp hdocument (root ++ rest)
      (mem_valuePointers (by rw [hresolve]; rfl))
    have hlength : root.length < (root ++ rest).length + 1 := by
      rw [List.length_append]
      omega
    have hsplit := List.all_eq_true.mp hpointer root.length (List.mem_range.mpr hlength)
    rw [List.take_left, List.drop_left] at hsplit
    exact List.all_eq_true.mp hsplit resource hresource
  unfold readsBackAt at hat
  cases hresolved : library.uris.resolveAgainst base (Qualification.referenceText resource rest) with
  | none =>
    rw [hresolved] at hat
    cases hat
  | some resolved =>
    rw [hresolved, Option.any_some, Bool.and_eq_true] at hat
    obtain ⟨hnormalize, hfragment⟩ := hat
    refine ⟨resolved, rfl, of_decide_eq_true hnormalize, ?_⟩
    by_cases hrest : rest = []
    · rw [if_pos hrest] at hfragment ⊢
      exact of_decide_eq_true hfragment
    · rw [if_neg hrest, Bool.and_eq_true] at hfragment
      rw [if_neg hrest]
      exact ⟨of_decide_eq_true hfragment.1, of_decide_eq_true hfragment.2⟩

namespace ResourceTables

variable {library : Library} {given : List ResourceDocument} {tables : ResourceTables}

theorem referenceText_resolves (hinv : WellFormed library given tables)
    (hreads : ReadsBack library given) {base : String}
    (hbase : ∃ index place, (index, place, base) ∈ places library.uris given)
    (root : ResourceRoot) {rest : Pointer}
    (hroot : tables.aliases.lookup root.resource = some root)
    (hplace : (schemaIn given root.documentIndex (root.documentPointer ++ rest)).isSome = true) :
    ∃ location, (tables.graph library.uris).resolveReferenceRaw base
        (Qualification.referenceText root.resource rest) = .ok location ∧
      location.documentIndex = root.documentIndex ∧
      location.documentPointer = root.documentPointer ++ rest := by
  obtain ⟨resolved, hresolved, hnormalize, hfragment⟩ := hreads base root.resource
    root.documentIndex root.documentPointer rest hbase (hinv.based _ (lookup_mem hroot)) hplace
  suffices hlater : ∃ location, (tables.graph library.uris).resolveFragment root
      (splitFragment resolved).2 = .ok location ∧ location.documentIndex = root.documentIndex ∧
      location.documentPointer = root.documentPointer ++ rest by
    obtain ⟨location, hlocation, hwhere⟩ := hlater
    refine ⟨location, ?_, hwhere⟩
    rw [ResourceGraph.resolveReferenceRaw_eq, graph_uris, graph_aliases, hresolved]
    refine bind_eq_ok.mpr ⟨resolved, rfl, bind_eq_ok.mpr ⟨root.resource, ?_,
      bind_eq_ok.mpr ⟨root, ?_, hlocation⟩⟩⟩
    · rw [hnormalize]
      rfl
    · rw [hroot]
      rfl
  unfold ResourceGraph.resolveFragment
  by_cases hrest : rest = []
  · subst hrest
    rw [if_pos rfl] at hfragment
    rw [if_pos hfragment]
    obtain ⟨location, hlocation⟩ := locationFromRoot_isOk hinv hroot
    obtain ⟨-, -, hindex, hpointer⟩ :=
      Yields.returns_of_ok (locationFromRoot_yields hinv hroot) hlocation
    exact ⟨location, hlocation, hindex, by rw [hpointer, List.append_nil]⟩
  · rw [if_neg hrest] at hfragment
    obtain ⟨hslash, hparse⟩ := hfragment
    have hnonempty : (splitFragment resolved).2 ≠ "" := by
      intro hempty
      rw [hempty] at hslash
      simp at hslash
    rw [if_neg hnonempty, if_neg (not_not_intro hslash)]
    rw [hinv.documents.isSome] at hplace
    obtain ⟨location, hlocation⟩ := resolvePointer_isOk library hparse hplace
    obtain ⟨-, -, requested, hrequested, hindex, hpointer⟩ :=
      Yields.returns_of_ok (resolvePointer_yields hinv hroot _) hlocation
    obtain rfl := Option.some.inj (hparse.symm.trans hrequested)
    exact ⟨location, hlocation, hindex, hpointer⟩

end ResourceTables

end Schemaform.Resources
