import Mathlib.Data.List.Perm.Subperm
import Schemaform.Resources.QualifySpec

/-!
# Resources.PrepareSpec

A whole preparation.

* `indexDocument_yields`: a document's retrieval URI and canonical URI lead to one root, under
  which its schemas are indexed.
* `Prepared`: what is known of prepared tables: their documents are the given ones up to the texts
  of `$ref`s, they are well formed, every document can be found, and what a schema refers to or
  contains is part of the graph.
* `prepare_yields`: a preparation ends in prepared tables or in an error that it reports.
-/

namespace Schemaform.Resources

open Association

open ResourceTables

variable {library : Library} {given : List ResourceDocument} {tables tables' : ResourceTables}

/-! ## Checks -/

theorem mapError_qualification_yields {α : Type} (x : Except QualificationError α) :
    Yields (x.mapError PrepareError.qualification) (fun a => x = .ok a) PrepareError.Reported := by
  cases x with
  | ok a => rfl
  | error e => trivial

theorem qualifyDocument_yields (defaultDialect : Option String) (documents : List ResourceDocument)
    (retrievalUris : List (String × QualificationLocation)) (document : ResourceDocument) :
    Yields (qualifyDocument library defaultDialect documents retrievalUris document)
      (fun uris => retrievalUris.lookup document.retrievalUri = none ∧
        uris = (document.retrievalUri, qualificationLocation document []) :: retrievalUris)
      PrepareError.Reported := by
  unfold qualifyDocument
  cases hlookup : retrievalUris.lookup document.retrievalUri with
  | some first => trivial
  | none =>
    refine (mapError_qualification_yields _).bind fun _ _ _ => ?_
    refine (mapError_qualification_yields _).bind fun _ _ _ => ?_
    exact ⟨rfl, rfl⟩

theorem claimIdentity_yields (identityLocations : List (String × QualificationLocation))
    (document : ResourceDocument) :
    Yields (claimIdentity identityLocations document)
      (fun locations => identityLocations.lookup document.retrievalUri = none ∧
        locations = (document.retrievalUri, qualificationLocation document []) ::
          identityLocations) PrepareError.Reported := by
  unfold claimIdentity
  cases hlookup : identityLocations.lookup document.retrievalUri with
  | some first => trivial
  | none => exact ⟨rfl, rfl⟩

theorem validateDocument_yields (document : ResourceDocument) :
    Yields (validateDocument library document) (fun _ => library.validate document.document = none)
      PrepareError.Reported := by
  unfold validateDocument
  cases h : library.validate document.document with
  | some path => trivial
  | none => rfl

theorem resourceDocuments_yields (uris : UriRules) (rootUri : String) (rootDocument : Value)
    (resources : List (String × Value)) :
    Yields (resourceDocuments uris rootUri rootDocument resources) (fun documents => documents ≠ [])
      PrepareError.Reported := by
  unfold resourceDocuments
  refine (orInvalidGraph_yields _).bind fun retrievalUri _ _ => ?_
  refine (Yields.mapM_fails _ fun caller _ => ?_).bind fun callers _ _ => List.cons_ne_nil _ _
  exact (orInvalidGraph_yields _).bind fun _ _ _ => trivial

/-- A loop that claims a name for every item, each name once. -/
theorem claims_yields {α β : Type}
    {f : List (String × β) → α → Except PrepareError (List (String × β))}
    {name : α → String} {value : α → β}
    (hclaim : ∀ claimed a, Yields (f claimed a) (fun claimed' =>
      claimed.lookup (name a) = none ∧ claimed' = (name a, value a) :: claimed)
      PrepareError.Reported) (l : List α) (claimed : List (String × β)) :
    Yields (l.foldlM f claimed)
      (fun _ => (l.map name).Nodup ∧ ∀ a ∈ l, claimed.lookup (name a) = none)
      PrepareError.Reported := by
  induction l generalizing claimed with
  | nil => exact ⟨List.nodup_nil, fun _ ha => absurd ha List.not_mem_nil⟩
  | cons a l ih =>
    rw [List.foldlM_cons]
    refine (hclaim claimed a).bind fun claimed' _ hfirst => ?_
    obtain ⟨hnone, rfl⟩ := hfirst
    refine (ih _).mono fun _ hrest => ?_
    obtain ⟨hnodup, hnew⟩ := hrest
    have hnew (b : α) (hb : b ∈ l) : name b ≠ name a ∧ claimed.lookup (name b) = none := by
      have hb := hnew b hb
      rw [List.lookup_cons] at hb
      split at hb
      · cases hb
      · rename_i hne
        exact ⟨by simpa using hne, hb⟩
    constructor
    · rw [List.map_cons, List.nodup_cons]
      refine ⟨fun hmem => ?_, hnodup⟩
      obtain ⟨b, hb, heq⟩ := List.mem_map.mp hmem
      exact (hnew b hb).1 heq
    · exact List.forall_mem_cons.mpr ⟨hnone, fun b hb => (hnew b hb).2⟩

/-! ## Indexing documents -/

/-- A document can be found, and its root schema is indexed under the resource it is. -/
structure Opened (tables : ResourceTables) (document : ResourceDocument) (root : ResourceRoot) :
    Prop where
  found : tables.aliases.lookup document.retrievalUri = some root
  canonical : tables.aliases.lookup root.resource = some root
  pointer : root.documentPointer = []
  indexed : (root.documentIndex, [], root.resource) ∈ tables.indexedSchemas

theorem Opened.grows {document : ResourceDocument} {root : ResourceRoot}
    (h : Opened tables document root) (hgrows : Grows tables tables') :
    Opened tables' document root :=
  ⟨hgrows.aliases _ _ h.found, hgrows.aliases _ _ h.canonical, h.pointer, hgrows.indexed _ h.indexed⟩

theorem qualifiedCanonicalResourceUri_yields {index : Nat} {document current : ResourceDocument}
    (hgiven : given[index]? = some document) (huri : current.retrievalUri = document.retrievalUri)
    (hid : identityAt given index [] = textMember current.document "$id") :
    Yields (qualifiedCanonicalResourceUri library current [] current.retrievalUri current.document)
      (fun canonical => canonical ∈ basesAt library.uris given index []) PrepareError.Reported := by
  have hbases : basesAt library.uris given index [] =
      baseUris library.uris given index document.retrievalUri [] := by
    rw [basesAt, hgiven]
    rfl
  rw [hbases, baseUris, hid, huri]
  unfold qualifiedCanonicalResourceUri
  cases hidentity : textMember current.document "$id" with
  | none =>
    refine (orInvalidGraph_yields _).mono fun canonical hcanonical => ?_
    rw [hcanonical]
    exact List.mem_append_left _ (List.mem_cons_of_mem _ (List.mem_singleton_self canonical))
  | some identity =>
    dsimp only
    rw [Option.bind_some]
    cases hresolve : resolveResourceUri library.uris document.retrievalUri identity with
    | none => trivial
    | some canonical =>
      exact List.mem_append_right _ (List.mem_singleton_self canonical)

/-- What inserting a name for a root does, whatever names there are. -/
structure Named (library : Library) (given : List ResourceDocument) (tables tables' : ResourceTables)
    (uri : String) (root : ResourceRoot) : Prop where
  grows : Extends tables tables'
  sound : Sound library given tables'
  found : tables'.aliases.lookup uri = some root
  names : ∀ e ∈ tables'.aliases, e ∈ tables.aliases ∨ e.2 = root
  sameIndexed : tables'.indexedSchemas = tables.indexedSchemas

theorem insertAlias_named (hsound : Sound library given tables) (root : ResourceRoot)
    (hplace : (schemaIn given root.documentIndex root.documentPointer).isSome = true)
    (hbase : root.resource ∈ basesAt library.uris given root.documentIndex root.documentPointer)
    (uri : String) (location : QualificationLocation) :
    Yields (tables.insertAlias uri root location)
      (fun t => Named library given tables t uri root) PrepareError.Reported := by
  refine (insertAlias_yields hsound.located uri root location).mono fun t ht => ?_
  rcases ht with ⟨hlookup, rfl⟩ | ⟨hnone, rfl⟩
  · exact ⟨.refl t, hsound, hlookup, fun _ he => .inl he, rfl⟩
  · refine ⟨extends_addAlias hnone root location, hsound.addAlias hnone hplace hbase location,
      lookup_cons_same, fun e he => ?_, rfl⟩
    rcases List.mem_cons.mp he with rfl | he
    · exact .inr rfl
    · exact .inl he

/-- A root under two names, the second its own. -/
theorem Named.canonical {tables'' : ResourceTables} {uri : String} {root : ResourceRoot}
    (hinv : WellFormed library given tables) (h : Named library given tables tables' uri root)
    (h' : Named library given tables' tables'' root.resource root) :
    Extends tables tables'' ∧ WellFormed library given tables'' ∧
      tables''.aliases.lookup uri = some root ∧
      tables''.aliases.lookup root.resource = some root ∧
      tables''.indexedSchemas = tables.indexedSchemas := by
  have hgrows := h.grows.trans h'.grows
  have hindexed := h'.sameIndexed.trans h.sameIndexed
  refine ⟨hgrows, ⟨h'.sound, fun e he => ?_, fun key hkey => ?_⟩, h'.grows.aliases _ _ h.found,
    h'.found, hindexed⟩
  · rcases h'.names e he with he | heq
    · rcases h.names e he with he | heq
      · exact hgrows.aliases _ _ (hinv.canonical e he)
      · rw [heq]
        exact h'.found
    · rw [heq]
      exact h'.found
  · rw [hindexed] at hkey
    obtain ⟨owner, howner⟩ := hinv.indexed key hkey
    exact ⟨owner, howner.grows hgrows.toGrows⟩

/-- Growth but for the root of the graph. -/
def GrowsBelow (tables tables' : ResourceTables) : Prop :=
  Grows tables { tables' with root := tables.root }

theorem GrowsBelow.trans {tables'' : ResourceTables} (h : GrowsBelow tables tables')
    (h' : GrowsBelow tables' tables'') : GrowsBelow tables tables'' where
  documents := h.documents.trans h'.documents
  aliases uri root hroot := h'.aliases uri root (h.aliases uri root hroot)
  anchors key anchored ha := h'.anchors key anchored (h.anchors key anchored ha)
  indexed key hkey := h'.indexed key (h.indexed key hkey)
  sameRoot := rfl

/-- What indexing one document leaves. -/
structure IndexedDocument (library : Library) (given : List ResourceDocument)
    (tables tables' : ResourceTables) (index : Nat) (document : ResourceDocument) : Prop where
  grows : GrowsBelow tables tables'
  wellFormed : WellFormed library given tables'
  sameDocuments : tables'.documents = tables.documents
  sameTraversal : tables'.qualificationTraversal = tables.qualificationTraversal
  closed : ∀ key ∈ tables'.indexedSchemas,
    key ∈ tables.indexedSchemas ∨ ChildrenIndexed given key tables'
  opened : ∃ root, root.documentIndex = index ∧ Opened tables' document root ∧
    (index = 0 → tables'.root = root)
  root : index ≠ 0 → tables'.root = tables.root

/-- What opening a document leaves. -/
structure OpenedDocument (library : Library) (given : List ResourceDocument)
    (tables tables' : ResourceTables) (index : Nat) (document : ResourceDocument)
    (root : ResourceRoot) : Prop where
  grows : GrowsBelow tables tables'
  wellFormed : WellFormed library given tables'
  sameDocuments : tables'.documents = tables.documents
  sameTraversal : tables'.qualificationTraversal = tables.qualificationTraversal
  sameIndexed : tables'.indexedSchemas = tables.indexedSchemas
  found : tables'.aliases.lookup document.retrievalUri = some root
  canonical : tables'.aliases.lookup root.resource = some root
  place : root.documentIndex = index ∧ root.documentPointer = []
  root : index = 0 ∧ tables'.root = root ∨ index ≠ 0 ∧ tables'.root = tables.root

theorem openDocument_yields (hinv : WellFormed library given tables) {index : Nat}
    {document : ResourceDocument} (hgiven : given[index]? = some document) :
    Yields (openDocument library tables index)
      (fun opened => OpenedDocument library given tables opened.1 index document opened.2)
      PrepareError.Reported := by
  obtain ⟨current, hcurrent, -, huri, -⟩ := hinv.documents.document hgiven
  obtain ⟨-, hplace, hid, -⟩ := schemaIn_of_document hinv.toSound hcurrent
    (show Pointer.resolve [] current.document = some current.document from rfl)
  unfold openDocument
  refine (documentAt_yields hcurrent).bind fun found _ heq => ?_
  obtain rfl : current = found := heq.symm
  refine (qualifiedCanonicalResourceUri_yields hgiven huri hid).bind fun canonical _ hbase => ?_
  dsimp only
  have hfirst := insertAlias_named hinv.toSound ⟨index, canonical, []⟩ hplace hbase
    current.retrievalUri (qualificationLocation current [])
  refine hfirst.bind fun t₁ _ hnamed₁ => ?_
  have hsecond := insertAlias_named hnamed₁.sound ⟨index, canonical, []⟩ hplace hbase canonical
    (qualificationLocation current
      (if (current.document.get "$id").isSome then ["$id"] else []))
  refine hsecond.bind fun t₂ _ hnamed₂ => ?_
  obtain ⟨hgrows, hinv₂, hfound, hcanonical, hindexed⟩ := hnamed₁.canonical hinv hnamed₂
  rw [huri] at hfound
  -- the root of the graph is no part of what is well formed
  have hrooted (root : ResourceRoot) (hroot : index = 0 ∧ root = ⟨index, canonical, []⟩ ∨
      index ≠ 0 ∧ root = tables.root) : OpenedDocument library given tables
        { t₂ with root := root } index document ⟨index, canonical, []⟩ :=
    ⟨⟨hgrows.documents, hgrows.aliases, hgrows.anchors, hgrows.indexed, rfl⟩,
      hinv₂.of_documents hinv₂.documents rfl rfl rfl rfl, hgrows.sameDocuments,
      hgrows.sameTraversal, hindexed, hfound, hcanonical, ⟨rfl, rfl⟩, hroot⟩
  by_cases hzero : index = 0
  · rw [if_pos hzero]
    exact hrooted _ (.inl ⟨hzero, rfl⟩)
  · rw [if_neg hzero]
    exact hrooted t₂.root (.inr ⟨hzero, hgrows.sameRoot⟩)

theorem indexDocument_yields {fuel : Nat} (hfuel : (places library.uris given).length < fuel)
    (hinv : WellFormed library given tables) {index : Nat} {document : ResourceDocument}
    (hgiven : given[index]? = some document) :
    Yields (indexDocument library fuel tables index)
      (fun t => IndexedDocument library given tables t index document)
      PrepareError.Reported := by
  refine (openDocument_yields hinv hgiven).bind fun opened _ hopened => ?_
  obtain ⟨middle, root⟩ := opened
  have hunseen : unseen library.uris given middle.indexedSchemas < fuel :=
    Nat.lt_of_le_of_lt (unseen_le _ _ _) hfuel
  obtain ⟨hindex, hpointer⟩ := hopened.place
  have hunder : Under middle ([], root) := ⟨hopened.canonical, [], by rw [hpointer]; rfl⟩
  refine (indexSchema_yields hopened.wellFormed hunder hunseen).mono fun t ht => ?_
  obtain ⟨hindexes, hkey⟩ := ht
  have hlast := hindexes.grows
  refine ⟨?_, hindexes.wellFormed, hlast.sameDocuments.trans hopened.sameDocuments,
    hlast.sameTraversal.trans hopened.sameTraversal, ?_, ⟨root, hindex, ?_, ?_⟩, ?_⟩
  · exact hopened.grows.trans
      ⟨hlast.documents, hlast.aliases, hlast.anchors, hlast.indexed, rfl⟩
  · intro key hmem
    rw [← hopened.sameIndexed]
    exact hindexes.closed key hmem
  · exact ⟨hlast.aliases _ _ hopened.found, hlast.aliases _ _ hopened.canonical, hpointer, hkey⟩
  · intro hzero
    rcases hopened.root with ⟨-, hroot⟩ | ⟨hne, -⟩
    · exact hlast.sameRoot.trans hroot
    · exact absurd hzero hne
  · intro hne
    rcases hopened.root with ⟨hzero, -⟩ | ⟨-, hroot⟩
    · exact absurd hzero hne
    · exact hlast.sameRoot.trans hroot

/-- What holds between documents. -/
structure Indexing (library : Library) (given : List ResourceDocument) (tables : ResourceTables) :
    Prop where
  wellFormed : WellFormed library given tables
  sameDocuments : tables.documents = given
  traversal : tables.qualificationTraversal = 0
  closed : ∀ key ∈ tables.indexedSchemas, ChildrenIndexed given key tables

theorem IndexedDocument.indexing {index : Nat} {document : ResourceDocument}
    (h : IndexedDocument library given tables tables' index document)
    (hindexing : Indexing library given tables) : Indexing library given tables' where
  wellFormed := h.wellFormed
  sameDocuments := h.sameDocuments.trans hindexing.sameDocuments
  traversal := h.sameTraversal.trans hindexing.traversal
  closed key hkey := by
    rcases h.closed key hkey with hold | hclosed
    · intro child hchild
      obtain ⟨resource, hresource⟩ := hindexing.closed key hold child hchild
      exact ⟨resource, h.grows.indexed _ hresource⟩
    · exact hclosed

theorem IndexedDocument.growsWhole {index : Nat} {document : ResourceDocument}
    (h : IndexedDocument library given tables tables' index document) (hindex : index ≠ 0) :
    Grows tables tables' where
  documents := h.grows.documents
  aliases := h.grows.aliases
  anchors := h.grows.anchors
  indexed := h.grows.indexed
  sameRoot := h.root hindex

theorem initialTables_indexing (library : Library) (given : List ResourceDocument)
    (identityLocations : List (String × QualificationLocation)) (resource : String) :
    Indexing library given (initialTables given identityLocations resource) where
  wellFormed := {
    documents := rfl
    addressable := fun _ he => absurd he List.not_mem_nil
    based := fun _ he => absurd he List.not_mem_nil
    located := fun _ he => absurd he List.not_mem_nil
    anchored := fun _ he => absurd he List.not_mem_nil
    canonical := fun _ he => absurd he List.not_mem_nil
    indexed := fun _ hkey => absurd hkey List.not_mem_nil }
  sameDocuments := rfl
  traversal := rfl
  closed _ hkey := absurd hkey List.not_mem_nil

/-- The documents are indexed in order, the first as the root of the graph. -/
theorem indexDocumentLoop_yields {fuel : Nat} {first : ResourceDocument}
    {rest : List ResourceDocument} (hgiven : given = first :: rest)
    (hfuel : (places library.uris given).length < fuel) (hindexing : Indexing library given tables) :
    Yields ((List.range given.length).foldlM (indexDocument library fuel) tables)
      (fun t => Indexing library given t ∧ t.root.documentIndex = 0 ∧ Opened t first t.root ∧
        ∀ index document, given[index]? = some document →
          ∃ root, root.documentIndex = index ∧ Opened t document root)
      PrepareError.Reported := by
  have hlength : given.length = rest.length + 1 := by rw [hgiven, List.length_cons]
  have hzero : given[0]? = some first := by rw [hgiven]; rfl
  rw [hlength, List.range_succ_eq_map, List.foldlM_cons]
  refine (indexDocument_yields hfuel hindexing.wellFormed hzero).bind fun t _ ht => ?_
  have hindexing₁ := ht.indexing hindexing
  obtain ⟨root, hindex, hopened, hroot⟩ := ht.opened
  have hroot := hroot rfl
  subst hroot
  have hbody (index : Nat) (hmem : index ∈ (List.range rest.length).map Nat.succ)
      (s : ResourceTables) (_ : Grows t s) (hs : Indexing library given s) :
      Yields (indexDocument library fuel s index)
        (fun s' => Grows s s' ∧ Indexing library given s' ∧
          ∀ document, given[index]? = some document →
            ∃ root, root.documentIndex = index ∧ Opened s' document root)
        PrepareError.Reported := by
    obtain ⟨i, hi, rfl⟩ := List.mem_map.mp hmem
    have hlt : i.succ < given.length := by
      have := List.mem_range.mp hi
      omega
    have hd : given[i.succ]? = some given[i.succ] := List.getElem?_eq_getElem hlt
    refine (indexDocument_yields hfuel hs.wellFormed hd).mono fun s' hs' => ?_
    refine ⟨hs'.growsWhole (Nat.succ_ne_zero i), hs'.indexing hs, fun document hdocument => ?_⟩
    obtain rfl := Option.some.inj (hd.symm.trans hdocument)
    obtain ⟨root, hindex, hopened, -⟩ := hs'.opened
    exact ⟨root, hindex, hopened⟩
  have hlasts (index : Nat) (s s' : ResourceTables) (h : ∀ document, given[index]? = some document →
      ∃ root, root.documentIndex = index ∧ Opened s document root) (hgrows : Grows s s')
      (document : ResourceDocument) (hd : given[index]? = some document) :
      ∃ root, root.documentIndex = index ∧ Opened s' document root := by
    obtain ⟨root, hindex, hopened⟩ := h document hd
    exact ⟨root, hindex, hopened.grows hgrows⟩
  have hloop := Yields.foldlM Grows _ _ .refl (fun _ _ _ => .trans) hlasts _ hbody hindexing₁
  refine hloop.mono fun t' ht' => ?_
  obtain ⟨hgrows, hindexing', hall⟩ := ht'
  refine ⟨hindexing', ?_, ?_, fun index document hd => ?_⟩
  · rw [hgrows.sameRoot]
    exact hindex
  · rw [hgrows.sameRoot]
    exact hopened.grows hgrows
  · cases index with
    | zero =>
      obtain rfl := Option.some.inj (hzero.symm.trans hd)
      exact ⟨t.root, hindex, hopened.grows hgrows⟩
    | succ i =>
      have hlt := (List.getElem?_eq_some_iff.mp hd).1
      refine hall i.succ (List.mem_map_of_mem (List.mem_range.mpr ?_)) document hd
      omega

/-- What is known before references are followed. -/
structure Settings (library : Library) (given : List ResourceDocument) (tables : ResourceTables) :
    Prop where
  /-- The root schema of the first document is the root of the graph. -/
  root : tables.root.documentIndex = 0 ∧ ∃ first, given.head? = some first ∧
    Opened tables first tables.root
  opened : ∀ index document, given[index]? = some document →
    ∃ root, root.documentIndex = index ∧ Opened tables document root
  distinct : (given.map (·.retrievalUri)).Nodup
  foreign : ∀ document ∈ given, document.retrievalUri ∉ builtInResourceUris
  valid : ∀ document ∈ given, library.validate document.document = none

theorem Settings.grows (h : Settings library given tables) (hgrows : Grows tables tables') :
    Settings library given tables' where
  root := by
    obtain ⟨hindex, first, hfirst, hopened⟩ := h.root
    rw [hgrows.sameRoot]
    exact ⟨hindex, first, hfirst, hopened.grows hgrows⟩
  opened index document hd := by
    obtain ⟨root, hindex, hopened⟩ := h.opened index document hd
    exact ⟨root, hindex, hopened.grows hgrows⟩
  distinct := h.distinct
  foreign := h.foreign
  valid := h.valid

theorem lookup_builtInIdentityLocations {uri : String}
    (h : builtInIdentityLocations.lookup uri = none) : uri ∉ builtInResourceUris := by
  intro hmem
  rw [List.lookup_eq_none_iff] at h
  have := h (uri, ⟨.builtIn, uri, []⟩) (List.mem_map_of_mem hmem)
  simp at this

theorem indexDocuments_yields {fuel : Nat} (hgiven : given ≠ [])
    (hfuel : (places library.uris given).length < fuel) (defaultDialect : Option String) :
    Yields (indexDocuments library fuel given defaultDialect)
      (fun t => Indexing library given t ∧ Settings library given t) PrepareError.Reported := by
  unfold indexDocuments
  refine (claims_yields (qualifyDocument_yields defaultDialect given) given []).bind
    fun _ _ hretrieval => ?_
  refine (claims_yields claimIdentity_yields given builtInIdentityLocations).bind
    fun identityLocations _ hidentities => ?_
  cases hsplit : given with
  | nil => exact absurd hsplit hgiven
  | cons first rest =>
    rw [← hsplit]
    have hhead : given.head? = some first := by rw [hsplit]; rfl
    rw [hhead]
    have hloop := indexDocumentLoop_yields hsplit hfuel
      (initialTables_indexing library given identityLocations first.retrievalUri)
    refine hloop.bind fun t _ ht => ?_
    obtain ⟨hindexing, hindex, hroot, hopened⟩ := ht
    have hvalidate : Yields (t.documents.forM (validateDocument library)) _ _ :=
      Yields.forM t.documents fun document _ => validateDocument_yields document
    refine hvalidate.bind fun _ _ hvalid => ?_
    rw [hindexing.sameDocuments] at hvalid
    exact ⟨hindexing, ⟨hindex, first, hhead, hroot⟩, hopened, hretrieval.1,
      fun document hd => lookup_builtInIdentityLocations (hidentities.2 document hd), hvalid⟩

/-! ## The registry -/

theorem schemaIn_document (hsound : Sound library given tables) {documentIndex : Nat}
    {pointer : Pointer} (hplace : (schemaIn given documentIndex pointer).isSome = true) :
    ∃ document, tables.documents[documentIndex]? = some document ∧
      (pointer.resolve document.document).isSome = true := by
  rw [hsound.documents.isSome] at hplace
  obtain ⟨schema, hschema⟩ := Option.isSome_iff_exists.mp hplace
  obtain ⟨document, hd, hresolve⟩ := Option.bind_eq_some_iff.mp hschema
  exact ⟨document, hd, by rw [hresolve]; rfl⟩

theorem validatorDocument_yields {fails : PrepareError → Prop} {documentIndex : Nat}
    {document : ResourceDocument} (hd : tables.documents[documentIndex]? = some document)
    (pointer : Pointer) (hresolve : (pointer.resolve document.document).isSome = true) :
    Yields (tables.validatorDocument documentIndex pointer) (fun _ => True) fails := by
  refine (documentAt_yields hd).bind fun found _ heq => ?_
  subst heq
  exact (orPanicWith_yields hresolve).mono fun _ _ => trivial

theorem mem_sortedRoots {root : ResourceRoot} {roots : List ResourceRoot}
    (h : root ∈ sortedRoots roots) : root ∈ roots := by
  have hmem := (List.destutter_sublist _ _).subset h
  exact List.mem_mergeSort.mp hmem

theorem undiscoveredResources_yields (hsound : Sound library given tables) :
    Yields (tables.undiscoveredResources library)
      (fun roots => ∀ root ∈ roots, ∃ uri, (uri, root) ∈ tables.aliases) PrepareError.Reported := by
  have hmember (root : ResourceRoot) (hroot : root ∈ tables.aliases.map Prod.snd) :
      ∃ uri, (uri, root) ∈ tables.aliases := by
    obtain ⟨e, he, rfl⟩ := List.mem_map.mp hroot
    exact ⟨e.1, he⟩
  unfold undiscoveredResources
  refine (Yields.filterM _ fun root hroot => ?_).bind fun roots _ hroots root hroot => ?_
  · by_cases hempty : root.documentPointer.isEmpty = true
    · rw [if_pos hempty]
      trivial
    · rw [if_neg hempty]
      obtain ⟨uri, hmem⟩ := hmember root hroot
      obtain ⟨document, hd, -⟩ := schemaIn_document hsound (hsound.addressable _ hmem)
      exact (documentAt_yields hd).bind fun _ _ _ => trivial
  · exact hmember root (hroots root (mem_sortedRoots hroot))

theorem register_yields (hsound : Sound library given tables) :
    Yields (tables.register library) (fun t => t = tables) PrepareError.Reported := by
  unfold register
  refine (Yields.mapM_fails _ fun entry hentry => ?_).bind fun documents _ _ => ?_
  · have hd := List.mem_zipIdx_iff_getElem?.mp hentry
    exact (validatorDocument_yields hd [] rfl).bind fun _ _ _ => trivial
  refine (undiscoveredResources_yields hsound).bind fun roots _ hroots => ?_
  refine (Yields.mapM_fails _ fun root hroot => ?_).bind fun undiscovered _ _ => ?_
  · obtain ⟨uri, hmem⟩ := hroots root hroot
    obtain ⟨document, hd, hresolve⟩ := schemaIn_document hsound (hsound.addressable _ hmem)
    exact (validatorDocument_yields hd _ hresolve).bind fun _ _ _ => trivial
  by_cases hregisters : library.registers (documents ++ undiscovered) = true
  · rw [if_pos hregisters]
    rfl
  · rw [if_neg hregisters]
    trivial

/-! ## Preparation -/

/-- What is known of prepared tables. -/
structure Prepared (library : Library) (given : List ResourceDocument) (tables : ResourceTables) :
    Prop extends Settings library given tables where
  wellFormed : WellFormed library given tables
  /-- The schemas whose references were followed. -/
  followed : ∃ visited, Qualified library given ⟨tables, visited⟩

/-- More depth than there are places in the documents. -/
def depthBound (library : Library) (rootUri : String) (rootDocument : Value)
    (resources : List (String × Value)) : Nat :=
  match resourceDocuments library.uris rootUri rootDocument resources with
  | .ok given => (places library.uris given).length + 1
  | .error _ => 0

section Prepare

variable (library : Library) (rootUri : String) (rootDocument : Value)
  (resources : List (String × Value)) (defaultDialect : Option String) (more : Nat)

/-- With enough depth a preparation ends, in prepared tables or in an error for its caller. -/
theorem prepare_yields :
    Yields (prepare library (depthBound library rootUri rootDocument resources + more) rootUri
        rootDocument resources defaultDialect)
      (fun tables => ∃ given, resourceDocuments library.uris rootUri rootDocument resources =
        .ok given ∧ Prepared library given tables) PrepareError.Reported := by
  unfold prepare
  refine (resourceDocuments_yields _ _ _ _).bind fun given hdocuments hgiven => ?_
  have hfuel : (places library.uris given).length <
      depthBound library rootUri rootDocument resources + more := by
    unfold depthBound
    rw [hdocuments]
    dsimp only
    omega
  refine (indexDocuments_yields hgiven hfuel defaultDialect).bind fun t _ ht => ?_
  obtain ⟨hindexing, hsettings⟩ := ht
  have hqualify := qualifyReferences_yields hfuel hindexing.wellFormed hindexing.sameDocuments
    hindexing.traversal
  refine hqualify.bind fun qualified _ hqualified => ?_
  obtain ⟨hqualified, hgrows⟩ := hqualified
  have hinv := hqualified.progress.wellFormed
  refine (register_yields hinv.toSound).mono fun t' ht' => ?_
  subst ht'
  exact ⟨given, hdocuments, hsettings.grows hgrows, hinv, qualified.visited, hqualified⟩

/-- Documents are changed in the texts of `$ref`s only, and every one can be found. -/
theorem prepare_keeps_documents :
    Yields (prepare library (depthBound library rootUri rootDocument resources + more) rootUri
        rootDocument resources defaultDialect)
      (fun tables => ∃ given, resourceDocuments library.uris rootUri rootDocument resources =
          .ok given ∧ SameDocuments given tables.documents ∧
        (given.map (·.retrievalUri)).Nodup ∧
        (∀ document ∈ given, document.retrievalUri ∉ builtInResourceUris) ∧
        (∀ index document, given[index]? = some document → ∃ root,
          root.documentIndex = index ∧ root.documentPointer = [] ∧
          tables.aliases.lookup document.retrievalUri = some root) ∧
        ∀ e ∈ tables.aliases, tables.aliases.lookup e.2.resource = some e.2 ∧
          (schemaIn tables.documents e.2.documentIndex e.2.documentPointer).isSome = true)
      PrepareError.Reported := by
  refine (prepare_yields library rootUri rootDocument resources defaultDialect more).mono
    fun tables htables => ?_
  obtain ⟨given, hgiven, hprepared⟩ := htables
  have hinv := hprepared.wellFormed
  refine ⟨given, hgiven, hinv.documents, hprepared.distinct, hprepared.foreign, ?_, ?_⟩
  · intro index document hd
    obtain ⟨root, hindex, hopened⟩ := hprepared.opened index document hd
    exact ⟨root, hindex, hopened.pointer, hopened.found⟩
  · intro e he
    refine ⟨hinv.canonical e he, ?_⟩
    rw [← hinv.documents.isSome]
    exact hinv.addressable e he

/-- The visited schemas are closed under subschemas and references, and the traversal counts them. -/
theorem prepare_follows_references :
    Yields (prepare library (depthBound library rootUri rootDocument resources + more) rootUri
        rootDocument resources defaultDialect)
      (fun tables => ∃ given, resourceDocuments library.uris rootUri rootDocument resources =
          .ok given ∧
        ∃ visited : List SchemaKey, visited.Nodup ∧
          tables.qualificationTraversal = visited.length ∧
          (∀ index document, given[index]? = some document →
            ∃ resource, (index, [], resource) ∈ visited) ∧
          ∀ key ∈ visited,
            (∀ child ∈ childrenAt given key.1 key.2.1,
              ∃ resource, (key.1, child, resource) ∈ visited) ∧
            (key.2.1 ≠ [] → ∀ dialect, referenceAt given key.1 key.2.1 "$schema" = some dialect →
              dialect = draft202012) ∧
            (ReadsBack library given → ∀ keyword ∈ referenceKeywords, ∀ text,
              referenceAt tables.documents key.1 key.2.1 keyword = some text →
              builtInReferenceResolves library key.2.2 text = true ∨
              ∃ location, (tables.graph library.uris).resolveReference key.2.2 text = .ok location ∧
                ∃ under, (location.documentIndex, location.documentPointer, under) ∈ visited))
      PrepareError.Reported := by
  refine (prepare_yields library rootUri rootDocument resources defaultDialect more).mono
    fun tables htables => ?_
  obtain ⟨given, hgiven, hprepared⟩ := htables
  obtain ⟨visited, hqualified⟩ := hprepared.followed
  refine ⟨given, hgiven, visited, hqualified.progress.nodup, hqualified.progress.traversal, ?_, ?_⟩
  · intro index document hd
    exact ⟨_, hqualified.roots index document hd⟩
  · intro key hkey
    have hclosed := hqualified.closed key hkey
    refine ⟨fun child hchild => ⟨_, hclosed.children child hchild⟩, hclosed.dialect, ?_⟩
    intro hreads keyword hkeyword text htext
    exact (hclosed.references hreads keyword hkeyword text htext).imp_right fun h => h.target

/-- Where no schema is visited under two resources, references keep their meaning: what is stored
for a visited schema is the reference it was given with, or leads to the same place. -/
theorem prepare_keeps_targets :
    Yields (prepare library (depthBound library rootUri rootDocument resources + more) rootUri
        rootDocument resources defaultDialect)
      (fun tables => ∃ given, resourceDocuments library.uris rootUri rootDocument resources =
          .ok given ∧
        ∃ visited : List SchemaKey, tables.qualificationTraversal = visited.length ∧
          visited.Nodup ∧
          (∀ index document, given[index]? = some document →
            ∃ resource, (index, [], resource) ∈ visited) ∧
          (∀ key ∈ visited, Closed library given key ⟨tables, visited⟩) ∧
          (ReadsBack library given → SingleBase visited →
            ∀ index place resource text, (index, place, resource) ∈ visited →
            referenceAt tables.documents index place "$ref" = some text →
            ∃ original, referenceAt given index place "$ref" = some original ∧
              (text = original ∨ SamePlace library tables resource original text)))
      PrepareError.Reported := by
  refine (prepare_yields library rootUri rootDocument resources defaultDialect more).mono
    fun tables htables => ?_
  obtain ⟨given, hgiven, hprepared⟩ := htables
  obtain ⟨visited, hqualified⟩ := hprepared.followed
  have hprogress := hqualified.progress
  refine ⟨given, hgiven, visited, hprogress.traversal, hprogress.nodup, ?_, hqualified.closed,
    hprogress.meant⟩
  intro index document hd
  exact ⟨_, hqualified.roots index document hd⟩

end Prepare

namespace Sample

/-- URIs without relative references, but for fragments. -/
def plainLibrary : Library where
  uris := {
    resolveAgainst := fun base reference =>
      if reference.toList.head? = some '#' then some (base ++ reference) else some reference
    normalize := fun uri => if '#' ∈ uri.toList then none else some uri }
  isUri _ := true
  validate _ := none
  specifies _ _ := true
  isDraftSubresource _ _ := false
  registers _ := true

/-- A reference into a region that is no schema position and that opens a resource on the way. -/
def schema : Value :=
  .object [("$ref", .string "#/x/a/y"), ("$schema", .string draft202012),
    ("x", .object [("a", .object [("$id", .string "s:a"),
      ("y", .object [("$anchor", .string "q")])])])]

def prepared : Except PrepareError ResourceTables :=
  prepare plainLibrary (depthBound plainLibrary "s:r" schema []) "s:r" schema [] none

def documents : List ResourceDocument :=
  ((resourceDocuments plainLibrary.uris "s:r" schema []).toOption).getD []

theorem given_eq {given : List ResourceDocument}
    (h : resourceDocuments plainLibrary.uris "s:r" schema [] = .ok given) : given = documents := by
  rw [documents, h]
  rfl

theorem prepared_ok : ∃ tables, prepared = .ok tables := by
  have hok : prepared.toOption.isSome = true := by decide +kernel
  cases h : prepared with
  | error e =>
    rw [h] at hok
    cases hok
  | ok tables => exact ⟨tables, rfl⟩

theorem readsBack : ReadsBack plainLibrary documents := readsBack_of_check (by decide +kernel)

/-- The target has got a resource of its own, under which it is referred to from then on. -/
theorem prepared_eq {tables : ResourceTables} (h : prepared = .ok tables) :
    tables.qualificationTraversal = 2 ∧
      referenceAt tables.documents 0 [] "$ref" = some "s:a#/y" ∧
      ((tables.graph plainLibrary.uris).resolveReference "s:r" "s:a#/y").toOption.map
        (fun location => (location.documentIndex, location.documentPointer)) =
          some (0, ["x", "a", "y"]) := by
  have heval : prepared.toOption.map (fun tables => (tables.qualificationTraversal,
      referenceAt tables.documents 0 [] "$ref",
      ((tables.graph plainLibrary.uris).resolveReference "s:r" "s:a#/y").toOption.map
        fun location => (location.documentIndex, location.documentPointer))) =
      some (2, some "s:a#/y", some (0, ["x", "a", "y"])) := by decide +kernel
  rw [h] at heval
  obtain ⟨htraversal, hrest⟩ := Prod.mk.inj (Option.some.inj heval)
  obtain ⟨hreference, hlocation⟩ := Prod.mk.inj hrest
  exact ⟨htraversal, hreference, hlocation⟩

theorem root_key {resource : String}
    (h : (0, [], resource) ∈ places plainLibrary.uris documents) : resource = "s:r" := by
  have hall : ∀ key ∈ places plainLibrary.uris documents, key.2.1 = [] → key.2.2 = "s:r" := by
    decide +kernel
  exact hall _ h rfl

/-- Two visits of two places. -/
theorem singleBase_of_pair {visited : List SchemaKey} {first second : SchemaKey}
    (hlength : visited.length = 2) (hfirst : first ∈ visited) (hsecond : second ∈ visited)
    (hne : first.2.1 ≠ second.2.1) : SingleBase visited := by
  have hsub : [first, second].Subperm visited := by
    refine List.Nodup.subperm ?_ fun key hkey => ?_
    · simp only [List.nodup_cons, List.mem_singleton, List.not_mem_nil, not_false_eq_true,
        List.nodup_nil, and_true]
      exact fun heq => hne (congrArg (·.2.1) heq)
    · rcases List.mem_pair.mp hkey with rfl | rfl
      · exact hfirst
      · exact hsecond
  have hperm := hsub.perm_of_length_le hlength.le
  intro index place resource resource' hkey hkey'
  rcases List.mem_pair.mp (hperm.mem_iff.mpr hkey) with rfl | rfl <;>
    rcases List.mem_pair.mp (hperm.mem_iff.mpr hkey') with heq | heq
  · exact (congrArg (·.2.2) heq).symm
  · exact absurd (congrArg (·.2.1) heq).symm hne.symm
  · exact absurd (congrArg (·.2.1) heq).symm hne
  · exact (congrArg (·.2.2) heq).symm

end Sample

open Schemaform.Resources.Sample in
theorem prepare_follows_references_region : ∃ tables, prepared = .ok tables ∧
    ∃ visited : List SchemaKey, tables.qualificationTraversal = visited.length ∧
      (∃ resource, (0, [], resource) ∈ visited) ∧
      ∀ key ∈ visited, ∀ text, referenceAt tables.documents key.1 key.2.1 "$ref" = some text →
        builtInReferenceResolves plainLibrary key.2.2 text = true ∨ ∃ location,
          (tables.graph plainLibrary.uris).resolveReference key.2.2 text = .ok location ∧
            ∃ under, (location.documentIndex, location.documentPointer, under) ∈ visited := by
  obtain ⟨tables, htables⟩ := prepared_ok
  obtain ⟨given, hgiven, visited, _, htraversal, hroots, hfollowed⟩ :=
    (prepare_follows_references plainLibrary "s:r" schema [] none 0).returns_of_ok htables
  obtain rfl := given_eq hgiven
  refine ⟨tables, htables, visited, htraversal, hroots 0 _ rfl, fun key hkey text htext => ?_⟩
  exact (hfollowed key hkey).2.2 readsBack "$ref" (by decide) text htext

open Schemaform.Resources.Sample in
/-- The reference is written anew and leads where it led. -/
theorem prepare_keeps_targets_region : ∃ tables, prepared = .ok tables ∧
    referenceAt documents 0 [] "$ref" = some "#/x/a/y" ∧
    referenceAt tables.documents 0 [] "$ref" = some "s:a#/y" ∧
    SamePlace plainLibrary tables "s:r" "#/x/a/y" "s:a#/y" := by
  obtain ⟨tables, htables⟩ := prepared_ok
  obtain ⟨htwo, htext, hlocation⟩ := prepared_eq htables
  obtain ⟨given, hgiven, visited, htraversal, hnodup, hroots, hclosed, hmeant⟩ :=
    (prepare_keeps_targets plainLibrary "s:r" schema [] none 0).returns_of_ok htables
  obtain rfl := given_eq hgiven
  have hgivenText : referenceAt documents 0 [] "$ref" = some "#/x/a/y" := by decide +kernel
  obtain ⟨resource, hroot⟩ := hroots 0 _ rfl
  obtain rfl := root_key (hclosed _ hroot).place
  -- the root and the target are all that is visited
  have htarget : ∃ under, (0, ["x", "a", "y"], under) ∈ visited := by
    rcases (hclosed _ hroot).references readsBack "$ref" (by decide) _ htext with hbuiltIn | hleads
    · exact absurd hbuiltIn (by decide +kernel)
    · obtain ⟨location, hresolve, under, hunder⟩ := hleads.target
      have hresolve : (tables.graph plainLibrary.uris).resolveReference "s:r" "s:a#/y" =
          .ok location := hresolve
      rw [hresolve] at hlocation
      obtain ⟨hindex, hpointer⟩ := Prod.mk.inj (Option.some.inj hlocation)
      exact ⟨under, hindex ▸ hpointer ▸ hunder⟩
  obtain ⟨under, htarget⟩ := htarget
  have hsingle : SingleBase visited :=
    singleBase_of_pair (htraversal.symm.trans htwo) hroot htarget (List.cons_ne_nil _ _).symm
  obtain ⟨original, horiginal, hsame⟩ := hmeant readsBack hsingle 0 [] "s:r" _ hroot htext
  obtain rfl := Option.some.inj (hgivenText.symm.trans horiginal)
  exact ⟨tables, htables, hgivenText, htext, hsame.resolve_left (by decide)⟩

end Schemaform.Resources
