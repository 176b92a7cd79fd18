import Schemaform.Resources.PrepareSpec

/-!
# Resources.DepthSpec

The depth a preparation is allowed does not matter once it is more than there are places.

* `indexSchema_agree`, `indexReferenceTarget_agree`: indexing.
* `follow_agree`, `qualifyReferences_agree`: following references.
* `prepare_depth`: a whole preparation.
-/

namespace Schemaform.Resources

open ResourceTables

variable {library : Library} {given : List ResourceDocument} {fuel fuel' : Nat}

namespace ResourceTables

variable {tables : ResourceTables}

/-! ## Indexing -/

theorem indexSchema_agree (hinv : WellFormed library given tables) {p : Pointer}
    {root : ResourceRoot} (hunder : Under tables (p, root))
    (hfuel : unseen library.uris given tables.indexedSchemas < fuel)
    (hfuel' : unseen library.uris given tables.indexedSchemas < fuel') :
    tables.indexSchema library fuel' p root = tables.indexSchema library fuel p root :=
  (indexRules library given).visit_agree (indexing library) (fun _ _ => rfl) (fun _ _ _ _ => rfl)
    hinv hunder hfuel
    hfuel'

theorem indexTowards_agree (hinv : WellFormed library given tables) {documentIndex : Nat}
    (hfuel : unseen library.uris given tables.indexedSchemas < fuel)
    (hfuel' : unseen library.uris given tables.indexedSchemas < fuel') {pointer : Pointer}
    {root : ResourceRoot} (hunder : Under tables (pointer, root)) (target : Pointer)
    (token : String) :
    indexTowards library fuel' documentIndex target (pointer, root, tables) token =
      indexTowards library fuel documentIndex target (pointer, root, tables) token := by
  obtain ⟨above, habove⟩ := hunder.below
  have habove : pointer = root.documentPointer ++ above := habove
  have hunder' : Under tables (pointer ++ [token], root) :=
    ⟨hunder.root, above ++ [token], by simp [habove]⟩
  unfold indexTowards
  dsimp only
  rw [indexSchema_agree hinv hunder' hfuel hfuel']

theorem indexReferenceTarget_agree (hinv : WellFormed library given tables) {documentIndex : Nat}
    (hfuel : unseen library.uris given tables.indexedSchemas < fuel)
    (hfuel' : unseen library.uris given tables.indexedSchemas < fuel') (root : ResourceRoot)
    (hroot : tables.aliases.lookup root.resource = some root)
    (hdocument : root.documentIndex = documentIndex) (target : Pointer) :
    tables.indexReferenceTarget library fuel' documentIndex target root =
      tables.indexReferenceTarget library fuel documentIndex target root := by
  let Inv (reached : Pointer × ResourceRoot × ResourceTables) : Prop :=
    WellFormed library given reached.2.2 ∧
      unseen library.uris given reached.2.2.indexedSchemas ≤
        unseen library.uris given tables.indexedSchemas ∧
      Reached given documentIndex reached.1 reached.2.1 reached.2.2
  have hstart : Inv (root.documentPointer, root, tables) :=
    ⟨hinv, Nat.le_refl _, ⟨hroot, [], (List.append_nil _).symm⟩, hdocument, fun _ => rfl⟩
  unfold indexReferenceTarget
  refine bind_congr fun suffix => ?_
  have hloop : suffix.foldlM (indexTowards library fuel' documentIndex target)
      (root.documentPointer, root, tables) =
      suffix.foldlM (indexTowards library fuel documentIndex target)
        (root.documentPointer, root, tables) := by
    refine Yields.foldlM_congr (fun _ _ => True) Inv (fun _ => trivial)
      (fun _ _ _ _ _ => trivial) suffix (fun token _ reached _ hreached => ?_) hstart
    obtain ⟨pointer, root', t⟩ := reached
    obtain ⟨hinv', hle, hreached⟩ := hreached
    have hle : unseen library.uris given t.indexedSchemas ≤
        unseen library.uris given tables.indexedSchemas := hle
    refine ⟨indexTowards_agree hinv' (by omega) (by omega) hreached.under target token, ?_⟩
    have hyields := indexTowards_yields hinv' (Nat.lt_of_le_of_lt hle hfuel) hreached target token
    refine (hyields.mono fun next hnext => ?_).mono_fails fun _ _ => trivial
    obtain ⟨-, hindexes, hreached'⟩ := hnext
    refine ⟨trivial, hindexes.wellFormed, ?_, hreached'⟩
    exact Nat.le_trans (unseen_mono hindexes.grows.indexed) hle
  rw [hloop]

end ResourceTables

/-! ## References -/

theorem follow_agree (hfuel : (places library.uris given).length < fuel)
    (hfuel' : (places library.uris given).length < fuel') (edge : QualificationEdge)
    {state : Qualification} (hprogress : Progress library given state) :
    Qualification.follow library fuel' edge state = Qualification.follow library fuel edge state := by
  cases edge with
  | child node => rfl
  | reference documentIndex pointer resource keyword text =>
    have hinv := hprogress.wellFormed
    unfold Qualification.follow
    cases hresolve : (state.tables.graph library.uris).resolveReferenceRaw resource text with
    | error e => cases e <;> simp only [hresolve]
    | ok target =>
      obtain ⟨hlocated, -⟩ := (resolveReferenceRaw_yields hinv resource text).returns_of_ok hresolve
      have hunseen := unseen_le library.uris given state.tables.indexedSchemas
      have htarget := indexReferenceTarget_agree hinv (Nat.lt_of_le_of_lt hunseen hfuel)
        (Nat.lt_of_le_of_lt hunseen hfuel')
        ⟨target.documentIndex, target.resource, target.resourceRoot⟩ hlocated.root rfl
        target.documentPointer
      simp only [hresolve, Qualification.followTarget, htarget]

theorem qualifySchemaReferences_agree (hfuel : (places library.uris given).length < fuel)
    (hfuel' : (places library.uris given).length < fuel') {node : QualificationNode}
    {state : Qualification} (hprogress : Progress library given state)
    (hready : NodeReady library given node) :
    qualifySchemaReferences library fuel' node state =
      qualifySchemaReferences library fuel node state := by
  have hunseen := unseen_le library.uris given state.visited
  exact (qualificationRules library given hfuel).visit_agree (qualification library fuel')
    (fun _ _ => rfl)
    (fun e _ hprogress _ => follow_agree hfuel hfuel' e hprogress) hprogress hready
    (Nat.lt_of_le_of_lt hunseen hfuel) (Nat.lt_of_le_of_lt hunseen hfuel')

theorem qualifyReferences_agree (hfuel : (places library.uris given).length < fuel)
    (hfuel' : (places library.uris given).length < fuel') {tables : ResourceTables}
    (hinv : WellFormed library given tables) (hsame : tables.documents = given)
    (htraversal : tables.qualificationTraversal = 0) :
    qualifyReferences library fuel' tables = qualifyReferences library fuel tables := by
  refine Yields.foldlM_congr (fun _ _ => True) (Progress library given) (fun _ => trivial)
    (fun _ _ _ _ _ => trivial) _ (fun index hindex state _ hprogress => ?_)
    (.start hinv hsame htraversal)
  have hlength : index < given.length := by
    rw [hinv.documents.length]
    exact List.mem_range.mp hindex
  have hgiven : given[index]? = some given[index] := List.getElem?_eq_getElem hlength
  obtain ⟨current, hcurrent, -, huri, -⟩ := hprogress.wellFormed.documents.document hgiven
  have hread : state.tables.document index = .ok current := by
    unfold ResourceTables.document
    rw [hcurrent]
    rfl
  have hready : NodeReady library given ⟨index, [], current.retrievalUri, true⟩ := by
    rw [huri]
    exact nodeReady_document hgiven
  rw [hread]
  constructor
  · exact qualifySchemaReferences_agree hfuel hfuel' hprogress hready
  · have hsize := Nat.lt_of_le_of_lt (unseen_le library.uris given state.visited) hfuel
    have hvisit := (qualificationRules library given hfuel).visit_yields hprogress hready hsize
    exact (hvisit.mono fun state' hstate' => ⟨trivial, hstate'.2.1⟩).mono_fails fun _ _ => trivial

/-! ## Documents -/

theorem indexDocument_agree (hfuel : (places library.uris given).length < fuel)
    (hfuel' : (places library.uris given).length < fuel') {tables : ResourceTables}
    (hinv : WellFormed library given tables) {index : Nat} (hindex : index < given.length) :
    indexDocument library fuel' tables index = indexDocument library fuel tables index := by
  have hgiven : given[index]? = some given[index] := List.getElem?_eq_getElem hindex
  have hopened := openDocument_yields hinv hgiven
  unfold indexDocument
  cases hopen : openDocument library tables index with
  | error e => rfl
  | ok opened =>
    obtain ⟨middle, root⟩ := opened
    have hopened := hopened.returns_of_ok hopen
    have hunseen := unseen_le library.uris given middle.indexedSchemas
    have hunder : Under middle ([], root) :=
      ⟨hopened.canonical, [], by rw [hopened.place.2]; rfl⟩
    exact indexSchema_agree hopened.wellFormed hunder (Nat.lt_of_le_of_lt hunseen hfuel)
      (Nat.lt_of_le_of_lt hunseen hfuel')

theorem indexDocuments_agree (hfuel : (places library.uris given).length < fuel)
    (hfuel' : (places library.uris given).length < fuel') (defaultDialect : Option String) :
    indexDocuments library fuel' given defaultDialect =
      indexDocuments library fuel given defaultDialect := by
  unfold indexDocuments
  refine bind_congr fun _ => bind_congr fun identityLocations => bind_congr fun first => ?_
  have hloop : (List.range given.length).foldlM (indexDocument library fuel')
      (initialTables given identityLocations first.retrievalUri) =
      (List.range given.length).foldlM (indexDocument library fuel)
        (initialTables given identityLocations first.retrievalUri) := by
    refine Yields.foldlM_congr (fun _ _ => True) (WellFormed library given) (fun _ => trivial)
      (fun _ _ _ _ _ => trivial) _ (fun index hindex tables _ hinv => ?_)
      (initialTables_indexing library given identityLocations first.retrievalUri).wellFormed
    have hindex := List.mem_range.mp hindex
    have hgiven : given[index]? = some given[index] := List.getElem?_eq_getElem hindex
    have hyields := indexDocument_yields hfuel hinv hgiven
    refine ⟨indexDocument_agree hfuel hfuel' hinv hindex, ?_⟩
    exact (hyields.mono fun t ht => ⟨trivial, ht.wellFormed⟩).mono_fails fun _ _ => trivial
  rw [hloop]

/-- More depth than there are places changes nothing. -/
theorem prepare_depth (library : Library) (rootUri : String) (rootDocument : Value)
    (resources : List (String × Value)) (defaultDialect : Option String) (more : Nat) :
    prepare library (depthBound library rootUri rootDocument resources + more) rootUri rootDocument
        resources defaultDialect =
      prepare library (depthBound library rootUri rootDocument resources) rootUri rootDocument
        resources defaultDialect := by
  unfold prepare
  have hdocuments := resourceDocuments_yields library.uris rootUri rootDocument resources
  cases hgiven : resourceDocuments library.uris rootUri rootDocument resources with
  | error e =>
    show (Except.error e : Except PrepareError ResourceTables) = .error e
    rfl
  | ok given =>
    have hbound : depthBound library rootUri rootDocument resources =
        (places library.uris given).length + 1 := by
      unfold depthBound
      rw [hgiven]
    have hfuel : (places library.uris given).length <
        depthBound library rootUri rootDocument resources := by omega
    have hfuel' : (places library.uris given).length <
        depthBound library rootUri rootDocument resources + more := by omega
    show (indexDocuments library _ given defaultDialect >>= _) =
      (indexDocuments library _ given defaultDialect >>= _)
    rw [indexDocuments_agree hfuel hfuel' defaultDialect]
    have hindexed := indexDocuments_yields (hdocuments.returns_of_ok hgiven) hfuel defaultDialect
    cases hindexDocuments : indexDocuments library
        (depthBound library rootUri rootDocument resources) given defaultDialect with
    | error e =>
      show (Except.error e : Except PrepareError ResourceTables) = .error e
      rfl
    | ok tables =>
      obtain ⟨hindexing, -⟩ := hindexed.returns_of_ok hindexDocuments
      show (qualifyReferences library _ tables >>= _) = (qualifyReferences library _ tables >>= _)
      rw [qualifyReferences_agree hfuel hfuel' hindexing.wellFormed hindexing.sameDocuments
        hindexing.traversal]

end Schemaform.Resources
