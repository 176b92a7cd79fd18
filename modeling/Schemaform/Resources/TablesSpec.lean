import Schemaform.Lib.Association
import Schemaform.Resources.Places

/-!
# Resources.TablesSpec

What every stage of a preparation keeps of the tables.

* `WellFormed`: every root can be found in its document and under its own URI, every anchor under
  its root, and where an indexed schema has an `$id` that opens a resource, the root is there.
* `Grows`: tables only gain entries, documents change in references only.
* `indexSchema_yields`, `indexReferenceTarget_yields`: indexing keeps both, indexes all it can
  reach through subschemas, and fails with an error it reports.
-/

namespace Schemaform.Resources

open Association

/-- An error for the caller, neither a panic nor an exhausted depth. -/
def PrepareError.Reported : PrepareError → Prop
  | .qualification _ | .invalidGraph => True
  | .panic _ | .exhausted => False

theorem orInvalidGraph_yields {α : Type} (answer : Option α) :
    Yields (orInvalidGraph answer) (fun a => answer = some a) PrepareError.Reported := by
  cases answer with
  | none => trivial
  | some a => rfl

theorem orPanicWith_yields {α : Type} {fails : PrepareError → Prop} {message : String}
    {answer : Option α} (h : answer.isSome = true) :
    Yields (orPanicWith message answer) (fun a => answer = some a) fails := by
  cases answer with
  | none => cases h
  | some a => rfl

theorem relativePointer_eq_some {root target rest : Pointer} :
    relativePointer root target = some rest ↔ target = root ++ rest := by
  unfold relativePointer
  constructor
  · intro h
    split at h
    · rename_i hprefix
      obtain ⟨r, rfl⟩ := List.isPrefixOf_iff_prefix.mp hprefix
      rw [List.drop_left, Option.some.injEq] at h
      rw [h]
    · cases h
  · rintro rfl
    rw [if_pos (List.isPrefixOf_iff_prefix.mpr ⟨rest, rfl⟩), List.drop_left]

namespace ResourceTables

section Invariant

variable (library : Library) (given : List ResourceDocument)

structure Anchored (tables : ResourceTables) (key : String × String) (anchored : IndexedAnchor) :
    Prop where
  root : tables.aliases.lookup anchored.root.resource = some anchored.root
  resource : anchored.root.resource = key.1
  pointer : anchored.documentPointer = anchored.root.documentPointer ++ anchored.pointer
  addressable :
    (schemaIn given anchored.root.documentIndex anchored.documentPointer).isSome = true
  settled : (identityAt given anchored.root.documentIndex anchored.documentPointer).isSome = true →
    anchored.pointer = []

/-- Documents, identities and anchors. -/
structure Sound (tables : ResourceTables) : Prop where
  documents : SameDocuments given tables.documents
  addressable : ∀ e ∈ tables.aliases,
    (schemaIn given e.2.documentIndex e.2.documentPointer).isSome = true
  based : ∀ e ∈ tables.aliases,
    e.2.resource ∈ basesAt library.uris given e.2.documentIndex e.2.documentPointer
  located : ∀ e ∈ tables.aliases, (tables.identityLocations.lookup e.1).isSome = true
  anchored : ∀ e ∈ tables.anchors, Anchored given tables e.1 e.2

/-- Every root is found under its own URI. -/
def Canonical (tables : ResourceTables) : Prop :=
  ∀ e ∈ tables.aliases, tables.aliases.lookup e.2.resource = some e.2

/-- An indexed schema stands below its root, and at the root its `$id` opens, if any. -/
structure Indexed (tables : ResourceTables) (key : SchemaKey) (root : ResourceRoot) : Prop where
  registered : tables.aliases.lookup root.resource = some root
  resource : root.resource = key.2.2
  document : root.documentIndex = key.1
  addressable : (schemaIn given key.1 key.2.1).isSome = true
  below : ∃ rest, key.2.1 = root.documentPointer ++ rest
  opened : ∀ identity, identityAt given key.1 key.2.1 = some identity →
    key.2.1 ≠ root.documentPointer →
    ∃ canonical, resolveResourceUri library.uris root.resource identity = some canonical ∧
      tables.aliases.lookup canonical = some ⟨key.1, canonical, key.2.1⟩

structure WellFormed (tables : ResourceTables) : Prop extends Sound library given tables where
  canonical : Canonical tables
  indexed : ∀ key ∈ tables.indexedSchemas, ∃ root, Indexed library given tables key root

end Invariant

/-! ## Growth -/

structure Grows (tables tables' : ResourceTables) : Prop where
  documents : SameDocuments tables.documents tables'.documents
  aliases : ∀ uri root, tables.aliases.lookup uri = some root →
    tables'.aliases.lookup uri = some root
  anchors : ∀ key anchored, tables.anchors.lookup key = some anchored →
    tables'.anchors.lookup key = some anchored
  indexed : ∀ key ∈ tables.indexedSchemas, key ∈ tables'.indexedSchemas
  sameRoot : tables'.root = tables.root

namespace Grows

variable {tables tables' tables'' : ResourceTables}

theorem refl (tables : ResourceTables) : Grows tables tables :=
  ⟨rfl, fun _ _ h => h, fun _ _ h => h, fun _ h => h, rfl⟩

theorem trans (h : Grows tables tables') (h' : Grows tables' tables'') : Grows tables tables'' where
  documents := h.documents.trans h'.documents
  aliases uri root hroot := h'.aliases uri root (h.aliases uri root hroot)
  anchors key anchored ha := h'.anchors key anchored (h.anchors key anchored ha)
  indexed key hkey := h'.indexed key (h.indexed key hkey)
  sameRoot := h'.sameRoot.trans h.sameRoot

end Grows

/-- Growth in which only aliases, anchors and indexed schemas are added. -/
structure Extends (tables tables' : ResourceTables) : Prop extends Grows tables tables' where
  sameDocuments : tables'.documents = tables.documents
  sameTraversal : tables'.qualificationTraversal = tables.qualificationTraversal
  sameReferences : tables'.referenceCount = tables.referenceCount

namespace Extends

variable {tables tables' tables'' : ResourceTables}

theorem refl (tables : ResourceTables) : Extends tables tables := ⟨.refl tables, rfl, rfl, rfl⟩

theorem trans (h : Extends tables tables') (h' : Extends tables' tables'') :
    Extends tables tables'' where
  toGrows := h.toGrows.trans h'.toGrows
  sameDocuments := h'.sameDocuments.trans h.sameDocuments
  sameTraversal := h'.sameTraversal.trans h.sameTraversal
  sameReferences := h'.sameReferences.trans h.sameReferences

end Extends

variable {library : Library} {given : List ResourceDocument} {tables tables' : ResourceTables}

theorem Anchored.grows {key : String × String} {anchored : IndexedAnchor}
    (h : Anchored given tables key anchored)
    (haliases : ∀ uri root, tables.aliases.lookup uri = some root →
      tables'.aliases.lookup uri = some root) : Anchored given tables' key anchored :=
  ⟨haliases _ _ h.root, h.resource, h.pointer, h.addressable, h.settled⟩

theorem Indexed.grows {key : SchemaKey} {root : ResourceRoot}
    (h : Indexed library given tables key root) (hgrows : Grows tables tables') :
    Indexed library given tables' key root where
  registered := hgrows.aliases _ _ h.registered
  resource := h.resource
  document := h.document
  addressable := h.addressable
  below := h.below
  opened identity hidentity hne := by
    obtain ⟨canonical, hcanonical, hlookup⟩ := h.opened identity hidentity hne
    exact ⟨canonical, hcanonical, hgrows.aliases _ _ hlookup⟩

/-! ## Documents -/

theorem Sound.document_isSome (h : Sound library given tables) {documentIndex : Nat}
    {pointer : Pointer} (hplace : (schemaIn given documentIndex pointer).isSome = true) :
    tables.documents[documentIndex]?.isSome = true := by
  rw [h.documents.isSome] at hplace
  cases hd : tables.documents[documentIndex]? with
  | none => rw [schemaIn, hd] at hplace; cases hplace
  | some document => rfl

theorem Sound.document_yields (h : Sound library given tables) {documentIndex : Nat}
    {pointer : Pointer} (hplace : (schemaIn given documentIndex pointer).isSome = true) :
    Yields (tables.document documentIndex) (fun d => tables.documents[documentIndex]? = some d)
      PrepareError.Reported :=
  orPanicWith_yields (h.document_isSome hplace)

theorem documentAt_yields {fails : PrepareError → Prop} {documentIndex : Nat}
    {document : ResourceDocument} (hd : tables.documents[documentIndex]? = some document) :
    Yields (tables.document documentIndex) (fun d => d = document) fails := by
  unfold ResourceTables.document
  rw [hd]
  rfl

/-! ## Aliases -/

theorem insertAlias_yields (hlocated : ∀ e ∈ tables.aliases,
      (tables.identityLocations.lookup e.1).isSome = true)
    (uri : String) (root : ResourceRoot) (location : QualificationLocation) :
    Yields (tables.insertAlias uri root location)
      (fun t => tables.aliases.lookup uri = some root ∧ t = tables ∨
        tables.aliases.lookup uri = none ∧ t = tables.addAlias uri root location)
      PrepareError.Reported := by
  unfold insertAlias
  cases hlookup : tables.aliases.lookup uri with
  | some existing =>
    by_cases hsame : existing = root
    · subst hsame
      simp
    · simp only [ne_eq, hsame, not_false_eq_true, if_true]
      refine (orPanicWith_yields (hlocated _ (lookup_mem hlookup))).bind fun first _ _ => ?_
      trivial
  | none =>
    cases tables.identityLocations.lookup uri with
    | none => exact .inr ⟨rfl, rfl⟩
    | some first =>
      by_cases hsame : first = location
      · simp [hsame]
      · simp only [ne_eq, hsame, not_false_eq_true, if_true]
        trivial

theorem extends_addAlias {uri : String} (hnone : tables.aliases.lookup uri = none)
    (root : ResourceRoot) (location : QualificationLocation) :
    Extends tables (tables.addAlias uri root location) where
  documents := rfl
  aliases _ _ h := lookup_cons_of_none hnone h
  anchors _ _ h := h
  indexed _ h := h
  sameRoot := rfl
  sameDocuments := rfl
  sameTraversal := rfl
  sameReferences := rfl

theorem Sound.addAlias (h : Sound library given tables) {uri : String} {root : ResourceRoot}
    (hnone : tables.aliases.lookup uri = none)
    (hplace : (schemaIn given root.documentIndex root.documentPointer).isSome = true)
    (hbase : root.resource ∈ basesAt library.uris given root.documentIndex root.documentPointer)
    (location : QualificationLocation) :
    Sound library given (tables.addAlias uri root location) where
  documents := h.documents
  addressable e he := by
    rcases List.mem_cons.mp he with rfl | he
    · exact hplace
    · exact h.addressable e he
  based e he := by
    rcases List.mem_cons.mp he with rfl | he
    · exact hbase
    · exact h.based e he
  located e he := by
    rcases List.mem_cons.mp he with rfl | he
    · simp [ResourceTables.addAlias]
    · have hold := h.located e he
      rw [ResourceTables.addAlias, List.lookup_cons]
      split
      · rfl
      · exact hold
  anchored e he := (h.anchored e he).grows (extends_addAlias hnone root location).aliases

theorem Canonical.addAlias (h : Canonical tables) {root : ResourceRoot}
    (hnone : tables.aliases.lookup root.resource = none) (location : QualificationLocation) :
    Canonical (tables.addAlias root.resource root location) := by
  intro e he
  rcases List.mem_cons.mp he with rfl | he
  · exact lookup_cons_same
  · exact lookup_cons_of_none hnone (h e he)

/-! ## Entering a schema -/

/-- A root that is in the tables, and a place below it. -/
structure Under (tables : ResourceTables) (node : Pointer × ResourceRoot) : Prop where
  root : tables.aliases.lookup node.2.resource = some node.2
  below : ∃ rest, node.1 = node.2.documentPointer ++ rest

theorem Under.grows {node : Pointer × ResourceRoot} (h : Under tables node)
    (hgrows : Grows tables tables') : Under tables' node :=
  ⟨hgrows.aliases _ _ h.root, h.below⟩

/-- What a step of indexing keeps, but for the schema that is being indexed. -/
structure Kept (library : Library) (given : List ResourceDocument)
    (tables tables' : ResourceTables) : Prop where
  grows : Extends tables tables'
  sound : Sound library given tables'
  canonical : Canonical tables'
  same : tables'.indexedSchemas = tables.indexedSchemas

theorem Kept.refl (hsound : Sound library given tables) (hcanonical : Canonical tables) :
    Kept library given tables tables := ⟨.refl tables, hsound, hcanonical, rfl⟩

theorem Kept.trans {tables'' : ResourceTables} (h : Kept library given tables tables')
    (h' : Kept library given tables' tables'') : Kept library given tables tables'' :=
  ⟨h.grows.trans h'.grows, h'.sound, h'.canonical, h'.same.trans h.same⟩

theorem indexIdentity_yields (hsound : Sound library given tables) (hcanonical : Canonical tables)
    {p : Pointer} {root : ResourceRoot} (hunder : Under tables (p, root))
    (hplace : (schemaIn given root.documentIndex p).isSome = true) {id : Option String}
    (hid : identityAt given root.documentIndex p = id) :
    Yields (tables.indexIdentity library p root id)
      (fun result => Kept library given tables result.1 ∧ Under result.1 (p, result.2) ∧
        result.2.documentIndex = root.documentIndex ∧
        (id.isSome = true → result.2.documentPointer = p) ∧
        ∀ identity, id = some identity → p ≠ root.documentPointer →
          resolveResourceUri library.uris root.resource identity = some result.2.resource)
      PrepareError.Reported := by
  obtain ⟨rest, hrest⟩ := hunder.below
  unfold indexIdentity
  cases id with
  | none => exact ⟨.refl hsound hcanonical, hunder, rfl, nofun, nofun⟩
  | some identity =>
    by_cases hp : p = root.documentPointer
    · simp only [if_pos hp]
      exact ⟨.refl hsound hcanonical, hunder, rfl, fun _ => hp.symm, fun _ _ hne => absurd hp hne⟩
    · simp only [if_neg hp]
      refine (hsound.document_yields hplace).bind fun document _ _ => ?_
      cases hresolve : resolveResourceUri library.uris root.resource identity with
      | none => trivial
      | some canonical =>
        let opened : ResourceRoot := ⟨root.documentIndex, canonical, p⟩
        have hbase : canonical ∈ basesAt library.uris given root.documentIndex p := by
          obtain rfl : p = root.documentPointer ++ rest := hrest
          refine basesAt_identity (hsound.based _ (lookup_mem hunder.root)) ?_ hid hresolve
          rintro rfl
          exact hp (List.append_nil _)
        have hopened (t : ResourceTables) (ht : t.aliases.lookup canonical = some opened)
            (hkept : Kept library given tables t) :
            Kept library given tables t ∧ Under t (p, opened) ∧
              opened.documentIndex = root.documentIndex ∧
              ((some identity).isSome = true → opened.documentPointer = p) ∧
              ∀ i, some identity = some i → p ≠ root.documentPointer →
                resolveResourceUri library.uris root.resource i = some opened.resource := by
          refine ⟨hkept, ⟨ht, [], (List.append_nil p).symm⟩, rfl, fun _ => rfl, ?_⟩
          intro i hi _
          cases hi
          exact hresolve
        have hinsert := insertAlias_yields hsound.located canonical opened
          (qualificationLocation document (p ++ ["$id"]))
        refine hinsert.bind fun t _ ht => ?_
        rcases ht with ⟨hlookup, rfl⟩ | ⟨hnone, rfl⟩
        · exact hopened t hlookup (.refl hsound hcanonical)
        · have hcanonical' : Canonical (tables.addAlias opened.resource opened
              (qualificationLocation document (p ++ ["$id"]))) := hcanonical.addAlias hnone _
          exact hopened _ lookup_cons_same ⟨extends_addAlias hnone opened _,
            hsound.addAlias hnone hplace hbase _, hcanonical', rfl⟩

theorem insertAnchor_yields (hsound : Sound library given tables) (hcanonical : Canonical tables)
    {p : Pointer} {root : ResourceRoot} (hunder : Under tables (p, root))
    (hplace : (schemaIn given root.documentIndex p).isSome = true)
    (hid : (identityAt given root.documentIndex p).isSome = true → root.documentPointer = p)
    (anchor : String × String) :
    Yields (insertAnchor p root tables anchor)
      (fun t => Kept library given tables t ∧ ∃ anchored,
        t.anchors.lookup (root.resource, anchor.2) = some anchored ∧ anchored.documentPointer = p)
      PrepareError.Reported := by
  refine (hsound.document_yields hplace).bind fun document _ _ => ?_
  dsimp only
  cases hlookup : tables.anchors.lookup (root.resource, anchor.2) with
  | some first => trivial
  | none =>
    refine (orInvalidGraph_yields _).bind fun pointer _ hpointer => ?_
    obtain rfl : p = root.documentPointer ++ pointer := relativePointer_eq_some.mp hpointer
    refine ⟨⟨⟨⟨rfl, fun _ _ h => h, fun _ _ h => lookup_cons_of_none hlookup h, fun _ h => h,
      rfl⟩, rfl,
      rfl, rfl⟩, ⟨hsound.documents, hsound.addressable, hsound.based, hsound.located, ?_⟩,
      hcanonical, rfl⟩, _, lookup_cons_same, rfl⟩
    intro e he
    rcases List.mem_cons.mp he with rfl | he
    · refine ⟨hunder.root, rfl, rfl, hplace, fun h => ?_⟩
      have heq := hid h
      exact List.append_right_eq_self.mp heq.symm
    · exact (hsound.anchored e he).grows fun _ _ h => h

theorem insertAnchors_yields (hsound : Sound library given tables) (hcanonical : Canonical tables)
    {p : Pointer} {root : ResourceRoot} (hunder : Under tables (p, root))
    (hplace : (schemaIn given root.documentIndex p).isSome = true)
    (hid : (identityAt given root.documentIndex p).isSome = true → root.documentPointer = p)
    (anchors : List (String × String)) :
    Yields (anchors.foldlM (insertAnchor p root) tables) (Kept library given tables)
      PrepareError.Reported := by
  let Step (t t' : ResourceTables) : Prop :=
    Sound library given t → Canonical t → Kept library given t t'
  have hbody (anchor : String × String) (_ : anchor ∈ anchors) (t : ResourceTables)
      (ht : Step tables t) (hinv : Sound library given t ∧ Canonical t) :
      Yields (insertAnchor p root t anchor)
        (fun t' => Step t t' ∧ (Sound library given t' ∧ Canonical t') ∧ True)
        PrepareError.Reported := by
    have hkept := ht hsound hcanonical
    refine (insertAnchor_yields hinv.1 hinv.2 (hunder.grows hkept.grows.toGrows) hplace hid
      anchor).mono fun t' ht' => ?_
    exact ⟨fun _ _ => ht'.1, ⟨ht'.1.sound, ht'.1.canonical⟩, trivial⟩
  have hloop := Yields.foldlM Step _ (fun _ _ => True) (fun t ht hc => .refl ht hc)
    (fun s t u hst htu hs hc => (hst hs hc).trans (htu (hst hs hc).sound (hst hs hc).canonical))
    (fun _ _ _ _ _ => trivial) anchors hbody ⟨hsound, hcanonical⟩
  exact hloop.mono fun t ht => ht.1 hsound hcanonical

theorem schemaIn_of_document (hsound : Sound library given tables) {documentIndex : Nat}
    {p : Pointer} {document : ResourceDocument} {schema : Value}
    (hd : tables.documents[documentIndex]? = some document)
    (hs : p.resolve document.document = some schema) :
    schemaIn tables.documents documentIndex p = some schema ∧
      (schemaIn given documentIndex p).isSome = true ∧
      identityAt given documentIndex p = textMember schema "$id" ∧
      childrenAt given documentIndex p = schemaChildren schema p := by
  have hschema : schemaIn tables.documents documentIndex p = some schema := by
    rw [schemaIn, hd]
    exact hs
  refine ⟨hschema, ?_, ?_, ?_⟩
  · rw [hsound.documents.isSome, hschema]
    rfl
  · rw [hsound.documents.identityAt, identityAt, hschema]
    rfl
  · rw [hsound.documents.childrenAt, childrenAt, hschema]
    rfl

/-- The subschemas of an indexed schema are indexed. -/
def ChildrenIndexed (given : List ResourceDocument) (key : SchemaKey) (tables : ResourceTables) :
    Prop :=
  ∀ child ∈ childrenAt given key.1 key.2.1, ∃ resource,
    (key.1, child, resource) ∈ tables.indexedSchemas

def indexedKey (node : Pointer × ResourceRoot) : SchemaKey :=
  (node.2.documentIndex, node.1, node.2.resource)

theorem Under.document_isSome (hsound : Sound library given tables) {node : Pointer × ResourceRoot}
    (h : Under tables node) :
    (schemaIn given node.2.documentIndex node.2.documentPointer).isSome = true :=
  hsound.addressable _ (lookup_mem h.root)

theorem Under.place (hsound : Sound library given tables) {node : Pointer × ResourceRoot}
    (h : Under tables node) (hplace : (schemaIn given node.2.documentIndex node.1).isSome = true) :
    indexedKey node ∈ places library.uris given := by
  obtain ⟨rest, hrest⟩ := h.below
  refine mem_places hplace ?_
  rw [hrest]
  exact basesAt_append (hsound.based _ (lookup_mem h.root)) rest

theorem enterSchema_yields (hinv : WellFormed library given tables) {node : Pointer × ResourceRoot}
    (hunder : Under tables node) :
    Yields (enterSchema library node tables) (fun entered => ∀ t edges, entered = some (t, edges) →
      Extends tables t ∧ WellFormed library given t ∧
      unseen library.uris given t.indexedSchemas < unseen library.uris given tables.indexedSchemas ∧
      indexedKey node ∈ t.indexedSchemas ∧ (∀ edge ∈ edges, Under t edge) ∧
      ∀ key ∈ t.indexedSchemas, key ∈ tables.indexedSchemas ∨ ∀ t', Extends t t' →
        (∀ edge ∈ edges, indexedKey edge ∈ t'.indexedSchemas) → ChildrenIndexed given key t')
      PrepareError.Reported := by
  unfold enterSchema
  by_cases hkey : (node.2.documentIndex, node.1, node.2.resource) ∈ tables.indexedSchemas
  · simp only [if_pos hkey]
    exact fun _ _ h => nomatch h
  · simp only [if_neg hkey]
    let start : ResourceTables :=
      { tables with indexedSchemas := indexedKey node :: tables.indexedSchemas }
    have hstart : Extends tables start :=
      ⟨⟨rfl, fun _ _ h => h, fun _ _ h => h, fun _ h => List.mem_cons_of_mem _ h, rfl⟩,
        rfl, rfl, rfl⟩
    have hsound : Sound library given start :=
      ⟨hinv.documents, hinv.addressable, hinv.based, hinv.located, fun e he =>
        (hinv.anchored e he).grows fun _ _ h => h⟩
    have hcanonical : Canonical start := hinv.canonical
    have hunder' : Under start node := hunder.grows hstart.toGrows
    refine (hsound.document_yields (hunder'.document_isSome hsound)).bind fun document _ hd => ?_
    refine (orInvalidGraph_yields _).bind fun schema _ hschema => ?_
    obtain ⟨-, hplace, hidentity, hchildren⟩ := schemaIn_of_document hsound hd hschema
    refine (indexIdentity_yields hsound hcanonical hunder' hplace hidentity).bind
      fun result _ hresult => ?_
    obtain ⟨t₁, root⟩ := result
    obtain ⟨hkept₁, hroot, hindex, hat, hresolve⟩ := hresult
    have hanchors := insertAnchors_yields hkept₁.sound hkept₁.canonical hroot
      (by rw [hindex]; exact hplace) (fun h => hat (by rw [← hidentity, ← hindex]; exact h))
      (textMembers schema ["$anchor", "$dynamicAnchor"])
    refine hanchors.bind fun t _ hkept₂ => ?_
    have hkept := hkept₁.trans hkept₂
    have hgrows : Extends tables t := hstart.trans hkept.grows
    have hindexed : t.indexedSchemas = indexedKey node :: tables.indexedSchemas := hkept.same
    intro t' edges heq
    obtain ⟨rfl, rfl⟩ : t = t' ∧ (schemaChildren schema node.1).map (·, root) = edges := by
      simpa using heq
    refine ⟨hgrows, ⟨hkept.sound, hkept.canonical, ?_⟩, ?_, ?_, ?_, ?_⟩
    · intro key hmem
      rw [hindexed] at hmem
      rcases List.mem_cons.mp hmem with rfl | hmem
      · refine ⟨node.2, hgrows.aliases _ _ hunder.root, rfl, rfl, hplace, hunder.below, ?_⟩
        intro identity hid hne
        have hid : textMember schema "$id" = some identity := hidentity.symm.trans hid
        refine ⟨root.resource, hresolve identity hid hne, ?_⟩
        have hpointer : root.documentPointer = node.1 := hat (by rw [hid]; rfl)
        have hlookup := hkept₂.grows.aliases _ _ hroot.root
        rw [hlookup]
        refine congrArg some ?_
        show root = ⟨node.2.documentIndex, root.resource, node.1⟩
        rw [← hpointer, ← hindex]
      · obtain ⟨owner, howner⟩ := hinv.indexed key hmem
        exact ⟨owner, howner.grows hgrows.toGrows⟩
    · rw [hindexed]
      exact unseen_cons_lt (hunder.place hinv.toSound hplace) hkey
    · rw [hindexed]
      exact List.mem_cons_self
    · intro edge hedge
      obtain ⟨child, hchild, rfl⟩ := List.mem_map.mp hedge
      obtain ⟨above, habove⟩ := hroot.below
      obtain ⟨below, -, hbelow⟩ := below_of_mem_keywordChildren hchild
      refine ⟨hkept₂.grows.aliases _ _ hroot.root, above ++ below, ?_⟩
      rw [hbelow, ← List.append_assoc]
      exact congrArg (· ++ below) habove
    · intro key hmem
      rw [hindexed] at hmem
      rcases List.mem_cons.mp hmem with rfl | hmem
      · refine .inr fun t' _ hall child hchild => ⟨root.resource, ?_⟩
        have hchild : child ∈ schemaChildren schema node.1 := by
          rw [← hchildren]
          exact hchild
        have hseen := hall (child, root) (List.mem_map_of_mem hchild)
        rw [indexedKey, hindex] at hseen
        exact hseen
      · exact .inl hmem

def indexRules (library : Library) (given : List ResourceDocument) :
    Traversal.Rules (indexing library) SchemaKey where
  Inv := WellFormed library given
  Step := Extends
  Ready node tables := Under tables node
  Out node tables := Under tables node
  Seen node tables := indexedKey node ∈ tables.indexedSchemas
  Through node tables := indexedKey node ∈ tables.indexedSchemas
  Key key tables := key ∈ tables.indexedSchemas
  Covered := ChildrenIndexed given
  size tables := unseen library.uris given tables.indexedSchemas
  Fails := PrepareError.Reported
  refl := .refl
  trans _ _ _ := .trans
  ready_step _ _ _ h hstep := h.grows hstep.toGrows
  out_step _ _ _ h hstep := h.grows hstep.toGrows
  seen_step _ _ _ h hstep := hstep.indexed _ h
  through_step _ _ _ h hstep := hstep.indexed _ h
  covered_step _ _ _ h hstep child hchild := by
    obtain ⟨resource, hresource⟩ := h child hchild
    exact ⟨resource, hstep.indexed _ hresource⟩
  size_step _ _ h := unseen_mono h.indexed
  entering _ _ hinv hunder := enterSchema_yields hinv hunder
  known node tables _ _ henter := by
    unfold indexing enterSchema at henter
    by_cases hkey : (node.2.documentIndex, node.1, node.2.resource) ∈ tables.indexedSchemas
    · exact hkey
    · simp only [if_neg hkey] at henter
      obtain ⟨_, _, henter⟩ := bind_eq_ok.mp henter
      obtain ⟨_, _, henter⟩ := bind_eq_ok.mp henter
      obtain ⟨_, _, henter⟩ := bind_eq_ok.mp henter
      obtain ⟨_, _, henter⟩ := bind_eq_ok.mp henter
      cases henter
  following edge tables hinv hunder := by
    refine ⟨hinv, Nat.le_refl _, fun _ h => h, nofun, fun node hnode => ?_⟩
    obtain rfl : edge = node := Option.some.inj hnode
    exact ⟨hunder, fun _ hstep hseen => ⟨hstep, hseen⟩⟩

/-- What a stage of indexing leaves. -/
structure Indexes (library : Library) (given : List ResourceDocument)
    (tables tables' : ResourceTables) : Prop where
  grows : Extends tables tables'
  wellFormed : WellFormed library given tables'
  closed : ∀ key ∈ tables'.indexedSchemas,
    key ∈ tables.indexedSchemas ∨ ChildrenIndexed given key tables'

theorem Indexes.refl (h : WellFormed library given tables) :
    Indexes library given tables tables := ⟨.refl tables, h, fun _ hkey => .inl hkey⟩

theorem Indexes.trans {tables'' : ResourceTables} (h : Indexes library given tables tables')
    (h' : Indexes library given tables' tables'') : Indexes library given tables tables'' where
  grows := h.grows.trans h'.grows
  wellFormed := h'.wellFormed
  closed key hkey := by
    rcases h'.closed key hkey with hold | hclosed
    · rcases h.closed key hold with hold | hclosed
      · exact .inl hold
      · exact .inr ((indexRules library given).covered_step key tables' tables'' hclosed h'.grows)
    · exact .inr hclosed

theorem indexSchema_yields (hinv : WellFormed library given tables) {p : Pointer}
    {root : ResourceRoot} (hunder : Under tables (p, root)) {fuel : Nat}
    (hfuel : unseen library.uris given tables.indexedSchemas < fuel) :
    Yields (tables.indexSchema library fuel p root)
      (fun t => Indexes library given tables t ∧ indexedKey (p, root) ∈ t.indexedSchemas)
      PrepareError.Reported := by
  have hvisit := (indexRules library given).visit_yields hinv (n := (p, root)) hunder hfuel
  exact hvisit.mono fun t ht => ⟨⟨ht.1.1, ht.2.1, ht.1.2⟩, ht.2.2⟩

end ResourceTables

end Schemaform.Resources
