import Schemaform.Resources.PrepareSpec
import Schemaform.Resources.Queries

/-!
# Resources.QueriesSpec

Questions to prepared tables have answers.

* `queries_answered`: none panics.
* `cardinalityBoundLimits_exact`: the bounds are those of the indexed schemas, one for a location.
* `schemaLocationAliases_exact`: an alias leads from a location that means no place to a place
  below an anchor, and only where all anchors agree.
* `qualificationLocationForError_found`: the location of an error is a place of its value.
-/

namespace Schemaform.Resources

open Association

namespace ResourceTables

variable {library : Library} {given : List ResourceDocument} {tables : ResourceTables}

theorem mem_roots {root : ResourceRoot} (h : root ∈ tables.roots) :
    ∃ uri, (uri, root) ∈ tables.aliases := by
  obtain ⟨e, he, rfl⟩ := List.mem_map.mp (mem_sortedRoots h)
  exact ⟨e.1, he⟩

/-- No failure at all. -/
def Never : PrepareError → Prop := fun _ => False

theorem exists_of_never {α : Type} {x : Except PrepareError α} {returns : α → Prop}
    (h : Yields x returns Never) : ∃ a, x = .ok a ∧ returns a := by
  cases x with
  | ok a => exact ⟨a, rfl, h⟩
  | error e => exact h.elim

theorem root_document (hsound : Sound library given tables) {uri : String} {root : ResourceRoot}
    (hmem : (uri, root) ∈ tables.aliases) :
    ∃ document, tables.documents[root.documentIndex]? = some document ∧
      (root.documentPointer.resolve document.document).isSome = true :=
  schemaIn_document hsound (hsound.addressable _ hmem)

theorem resourceSchemas_yields (hsound : Sound library given tables) :
    Yields tables.resourceSchemas (fun _ => True) Never := by
  refine Yields.mapM_fails _ fun root hroot => ?_
  obtain ⟨uri, hmem⟩ := mem_roots hroot
  obtain ⟨document, hd, hresolve⟩ := root_document hsound hmem
  refine (documentAt_yields hd).bind fun found _ heq => ?_
  subst heq
  exact (orPanicWith_yields hresolve).bind fun _ _ _ => trivial

theorem limitMetrics_yields (hsound : Sound library given tables) :
    Yields tables.limitMetrics (fun _ => True) Never :=
  (resourceSchemas_yields hsound).bind fun _ _ _ => trivial

theorem documentForResource_yields (hsound : Sound library given tables) (resource : String) :
    Yields (tables.documentForResource resource) (fun _ => True) Never := by
  unfold documentForResource
  cases hlookup : tables.aliases.lookup resource with
  | none => trivial
  | some root =>
    obtain ⟨document, hd, -⟩ := root_document hsound (lookup_mem hlookup)
    have hread : tables.document root.documentIndex = .ok document := by
      unfold ResourceTables.document
      rw [hd]
      rfl
    simp only [hread]
    trivial

/-! ## Walks -/

theorem normalizeLocation_yields (hinv : WellFormed library given tables) {location : GraphLocation}
    (hlocated : Located tables location) :
    Yields ((tables.graph library.uris).normalizeLocation location) (Located tables)
      (· = .invalidGraph) := by
  unfold ResourceGraph.normalizeLocation
  split
  · exact hlocated
  · split
    · exact hlocated
    · refine (orInvalid_yields _).bind fun canonical _ _ => ?_
      refine (orInvalid_yields _).bind fun root _ hroot => ?_
      split
      · rfl
      · rename_i hat
        obtain ⟨hindex, hpointer⟩ := not_or.mp hat
        refine ⟨?_, ?_, hlocated.schema⟩
        · have hregistered := hinv.canonical _ (lookup_mem hroot)
          rw [← not_not.mp hindex]
          exact hregistered
        · show location.documentPointer = root.documentPointer ++ []
          rw [List.append_nil, not_not.mp hpointer]

theorem applicableChildren_yields (hinv : WellFormed library given tables) {location : GraphLocation}
    (hlocated : Located tables location) :
    Yields ((tables.graph library.uris).applicableChildren location)
      (fun children => ∀ child ∈ children, Located tables child) (· = .invalidGraph) := by
  unfold ResourceGraph.applicableChildren
  refine (Yields.mapM (fun _ child => Located tables child) _ fun pointer _ => ?_).mono
    fun children hchildren child hchild => ?_
  · obtain ⟨document, hd, -⟩ := Option.bind_eq_some_iff.mp hlocated.schema
    have hdocument : ((tables.graph library.uris).documents[location.documentIndex]?).isSome =
        true := by
      rw [graph, List.getElem?_map, hd]
      rfl
    refine (orPanic_yields hdocument).bind fun value _ hvalue => ?_
    rw [graph, List.getElem?_map, hd, Option.map_some, Option.some.injEq] at hvalue
    subst hvalue
    refine (orInvalid_yields _).bind fun schema _ hschema => ?_
    refine (orInvalid_yields _).bind fun relative _ hrelative => ?_
    have hpointer := relativePointer_eq_some.mp hrelative
    refine normalizeLocation_yields hinv ⟨hlocated.root, ?_, ?_⟩
    · show pointer = location.resourceRoot ++ (location.pointer ++ relative)
      rw [hpointer, hlocated.below, List.append_assoc]
    · show schemaIn tables.documents location.documentIndex pointer = some schema
      rw [schemaIn, hd]
      exact hschema
  · obtain ⟨_, _, hlocated⟩ := hchildren.1 child hchild
    exact hlocated

theorem resolveReference_yields (hinv : WellFormed library given tables)
    (baseResource reference : String) :
    Yields ((tables.graph library.uris).resolveReference baseResource reference) (Located tables)
      (· = .invalidGraph) :=
  (resolveReferenceRaw_yields hinv baseResource reference).bind fun _ _ hraw =>
    normalizeLocation_yields hinv hraw.1

/-- The locations a compiler comes to from the root of a graph. -/
inductive Walk (graph : ResourceGraph) (root : ResourceRoot) : GraphLocation → Prop where
  | root {location} (h : graph.locationFromRoot root = .ok location) : Walk graph root location
  | child {location children child} (hwalk : Walk graph root location)
      (h : graph.applicableChildren location = .ok children) (hchild : child ∈ children) :
      Walk graph root child
  | reference {location target} (reference : String) (hwalk : Walk graph root location)
      (h : graph.resolveReference location.resource reference = .ok target) : Walk graph root target

theorem Walk.located (hinv : WellFormed library given tables)
    (hroot : tables.aliases.lookup tables.root.resource = some tables.root)
    {location : GraphLocation} (h : Walk (tables.graph library.uris) tables.root location) :
    Located tables location := by
  induction h with
  | root h => exact ((locationFromRoot_yields hinv hroot).returns_of_ok h).1
  | child _ h hchild ih => exact (applicableChildren_yields hinv ih).returns_of_ok h _ hchild
  | reference text _ h _ => exact (resolveReference_yields hinv _ text).returns_of_ok h

/-! ## Bounds -/

/-- A root with none below it on the way to a place. -/
structure Deepest (tables : ResourceTables) (documentIndex : Nat) (place : Pointer)
    (root : ResourceRoot) (pointer : Pointer) : Prop where
  registered : tables.aliases.lookup root.resource = some root
  document : root.documentIndex = documentIndex
  below : place = root.documentPointer ++ pointer
  deepest : ∀ other : ResourceRoot, tables.aliases.lookup other.resource = some other →
    other.documentIndex = documentIndex → other.documentPointer <+: place →
    other.documentPointer <+: root.documentPointer

theorem deepestResourceRoot_deepest (hinv : WellFormed library given tables) {documentIndex : Nat}
    {place : Pointer} {fallback : ResourceRoot}
    (hfallback : tables.aliases.lookup fallback.resource = some fallback)
    (hdocument : fallback.documentIndex = documentIndex) (habove : fallback.documentPointer <+: place)
    (uris : UriRules) :
    ∃ pointer, Deepest tables documentIndex place
      ((tables.graph uris).deepestResourceRoot documentIndex place fallback) pointer := by
  obtain ⟨hdeepest, hmax⟩ := (tables.graph uris).deepestResourceRoot_cases documentIndex place
    fallback
  generalize (tables.graph uris).deepestResourceRoot documentIndex place fallback = root
    at hdeepest hmax
  have hroot : tables.aliases.lookup root.resource = some root ∧
      root.documentIndex = documentIndex ∧ root.documentPointer <+: place := by
    rcases hdeepest with rfl | ⟨hmem, hindex, hbelow⟩
    · exact ⟨hfallback, hdocument, habove⟩
    · obtain ⟨e, he, rfl⟩ := List.mem_map.mp hmem
      exact ⟨hinv.canonical e he, hindex, hbelow⟩
  obtain ⟨hregistered, hindex, pointer, hpointer⟩ := hroot
  refine ⟨pointer, hregistered, hindex, hpointer.symm, fun other hother hotherIndex hotherBelow => ?_⟩
  rcases List.prefix_or_prefix_of_prefix hotherBelow ⟨pointer, hpointer⟩ with hle | hge
  · exact hle
  · have hlength := hmax other (List.mem_map_of_mem (lookup_mem hother)) hotherIndex hotherBelow
    have heq := eq_of_prefix_of_length hge hlength
    exact ⟨[], by rw [List.append_nil, heq]⟩

/-- The value of a keyword of a schema in the documents. -/
def boundAt (tables : ResourceTables) (key : SchemaKey) (keyword : String) : Option Value :=
  (schemaIn tables.documents key.1 key.2.1).bind (·.get keyword)

theorem cardinalityKeywords_notNumeral {keyword : String} (h : keyword ∈ cardinalityKeywords) :
    Token.toNumeral keyword = none := by
  simp only [cardinalityKeywords, List.mem_cons, List.not_mem_nil, or_false] at h
  rcases h with rfl | rfl | rfl | rfl <;> decide

/-- A bound with the schema it is a bound of. -/
structure BoundOf (tables : ResourceTables) (key : SchemaKey) (entry : SchemaLocation × Value) :
    Prop where
  place : ∃ keyword ∈ cardinalityKeywords, ∃ root pointer,
    Deepest tables key.1 key.2.1 root pointer ∧
    entry.1 = ⟨root.resource, pointer ++ [keyword]⟩ ∧ boundAt tables key keyword = some entry.2

theorem boundLimitsAt_yields (h : Prepared library given tables) {key : SchemaKey}
    (hkey : key ∈ tables.indexedSchemas) :
    Yields (tables.boundLimitsAt library.uris key) (fun limits =>
      (∀ entry ∈ limits, BoundOf tables key entry) ∧
      ∀ keyword ∈ cardinalityKeywords, ∀ limit, boundAt tables key keyword = some limit →
        ∃ root pointer, Deepest tables key.1 key.2.1 root pointer ∧
          (⟨root.resource, pointer ++ [keyword]⟩, limit) ∈ limits) Never := by
  obtain ⟨owner, howner⟩ := h.wellFormed.indexed key hkey
  obtain ⟨document, hd, hresolve⟩ := schemaIn_document h.wellFormed.toSound howner.addressable
  obtain ⟨original, horiginal, -, huri, -⟩ := h.wellFormed.documents.symm.document hd
  obtain ⟨fallback, hindex, hopened⟩ := h.opened key.1 original horiginal
  have hfound : tables.aliases.lookup document.retrievalUri = some fallback := by
    rw [← huri]
    exact hopened.found
  unfold boundLimitsAt
  refine (documentAt_yields hd).bind fun found _ heq => ?_
  subst heq
  refine (orPanicWith_yields hresolve).bind fun schema _ hschema => ?_
  have hfoundSome : (tables.aliases.lookup found.retrievalUri).isSome = true := by
    rw [hfound]
    rfl
  refine (orPanicWith_yields hfoundSome).bind fun fallback' _ hfallback => ?_
  obtain rfl : fallback = fallback' := Option.some.inj (hfound.symm.trans hfallback)
  have habove : fallback.documentPointer <+: key.2.1 := by
    rw [hopened.pointer]
    exact List.nil_prefix
  obtain ⟨pointer, hdeepest⟩ := deepestResourceRoot_deepest h.wellFormed hopened.canonical hindex
    habove library.uris
  dsimp only
  generalize (tables.graph library.uris).deepestResourceRoot key.1 key.2.1 fallback = root
    at hdeepest ⊢
  have hrelative : relativePointer root.documentPointer key.2.1 = some pointer :=
    relativePointer_eq_some.mpr hdeepest.below
  rw [hrelative]
  have hboundAt (keyword : String) : boundAt tables key keyword = schema.get keyword := by
    rw [boundAt, schemaIn, hd, Option.bind_some, hschema, Option.bind_some]
  refine ⟨fun entry hentry => ?_, fun keyword hkeyword limit hlimit => ⟨root, pointer, hdeepest, ?_⟩⟩
  · obtain ⟨keyword, hkeyword, hentry⟩ := List.mem_filterMap.mp hentry
    obtain ⟨limit, hlimit, rfl⟩ := Option.map_eq_some_iff.mp hentry
    exact ⟨keyword, hkeyword, root, pointer, hdeepest, rfl, (hboundAt keyword).trans hlimit⟩
  · rw [hboundAt] at hlimit
    exact List.mem_filterMap.mpr ⟨keyword, hkeyword, by rw [hlimit]; rfl⟩

/-- The deepest root above a place under one URI. -/
theorem BoundOf.value {key : SchemaKey} {entry : SchemaLocation × Value}
    (h : BoundOf tables key entry) : ∃ root, tables.aliases.lookup entry.1.resource = some root ∧
      schemaIn tables.documents root.documentIndex (root.documentPointer ++ entry.1.pointer) =
        some entry.2 := by
  obtain ⟨keyword, hkeyword, root, pointer, hdeepest, hlocation, hbound⟩ := h.place
  refine ⟨root, ?_, ?_⟩
  · rw [hlocation]
    exact hdeepest.registered
  · rw [hlocation, hdeepest.document, ← List.append_assoc, ← hdeepest.below, schemaIn_append]
    obtain ⟨schema, hschema, hget⟩ := Option.bind_eq_some_iff.mp hbound
    rw [hschema, Option.bind_some, Pointer.resolve_cons,
      child_eq_get (cardinalityKeywords_notNumeral hkeyword), hget]
    rfl

/-- The bounds that are published are the bounds in the documents, each under the deepest resource
above it. In whatever order they are put into the map, a location has one value. -/
theorem cardinalityBoundLimits_yields (h : Prepared library given tables) :
    Yields (tables.cardinalityBoundLimits library.uris) (fun limits =>
      (∀ entry ∈ limits, ∃ root, tables.aliases.lookup entry.1.resource = some root ∧
        schemaIn tables.documents root.documentIndex (root.documentPointer ++ entry.1.pointer) =
          some entry.2) ∧
      ∀ key ∈ tables.indexedSchemas, ∀ keyword ∈ cardinalityKeywords, ∀ limit,
        boundAt tables key keyword = some limit →
        ∃ root pointer, Deepest tables key.1 key.2.1 root pointer ∧
          (⟨root.resource, pointer ++ [keyword]⟩, limit) ∈ limits) Never := by
  have hall := Yields.mapM _ tables.indexedSchemas fun key hkey => boundLimitsAt_yields h hkey
  obtain ⟨limits, hlimits, hsound, hcomplete⟩ := exists_of_never hall
  unfold cardinalityBoundLimits
  rw [hlimits]
  refine ⟨fun entry hentry => ?_, fun key hkey keyword hkeyword limit hlimit => ?_⟩
  · obtain ⟨part, hpart, hentry⟩ := List.mem_flatten.mp hentry
    obtain ⟨key, -, hbounds, -⟩ := hsound part hpart
    exact (hbounds entry hentry).value
  · obtain ⟨part, hpart, -, hbounds⟩ := hcomplete key hkey
    obtain ⟨root, pointer, hdeepest, hmem⟩ := hbounds keyword hkeyword limit hlimit
    exact ⟨root, pointer, hdeepest, List.mem_flatten.mpr ⟨part, hpart, hmem⟩⟩

/-! ## Aliases of schema locations -/

/-- A location below an anchored schema that means no place of its resource, and the pointer of the
place that is meant. -/
structure AliasOf (tables : ResourceTables) (entry : String × String) : Prop where
  place : ∃ key anchored schema relative, (key, anchored) ∈ tables.anchors ∧
    schemaIn tables.documents anchored.root.documentIndex anchored.documentPointer = some schema ∧
    relative ∈ valuePointers schema ∧
    schemaIn tables.documents anchored.root.documentIndex
      (anchored.root.documentPointer ++ relative) = none ∧
    entry = (key.1 ++ "#" ++ relative.text, (anchored.pointer ++ relative).text)

theorem aliasCandidates_yields (hsound : Sound library given tables)
    {anchor : (String × String) × IndexedAnchor} (hanchor : anchor ∈ tables.anchors) :
    Yields (tables.aliasCandidates anchor) (fun candidates => ∀ entry, entry ∈ candidates ↔
      ∃ schema relative, schemaIn tables.documents anchor.2.root.documentIndex
          anchor.2.documentPointer = some schema ∧ relative ∈ valuePointers schema ∧
        schemaIn tables.documents anchor.2.root.documentIndex
          (anchor.2.root.documentPointer ++ relative) = none ∧
        entry = (anchor.1.1 ++ "#" ++ relative.text, (anchor.2.pointer ++ relative).text))
      Never := by
  obtain ⟨document, hd, hresolve⟩ :=
    schemaIn_document hsound (hsound.anchored anchor hanchor).addressable
  unfold aliasCandidates
  refine (documentAt_yields hd).bind fun found _ heq => ?_
  subst heq
  refine (orPanicWith_yields hresolve).bind fun schema _ hschema => ?_
  have hin (pointer : Pointer) : schemaIn tables.documents anchor.2.root.documentIndex pointer =
      pointer.resolve found.document := by
    rw [schemaIn, hd]
    rfl
  intro entry
  simp only [List.mem_map, List.mem_filter, Option.isNone_iff_eq_none, hin]
  constructor
  · intro h
    obtain ⟨relative, ⟨hmem, hnone⟩, rfl⟩ := h
    exact ⟨schema, relative, hschema, hmem, hnone, by rw [text_append]⟩
  · intro h
    obtain ⟨schema', relative, hschema', hmem, hnone, rfl⟩ := h
    obtain rfl := Option.some.inj (hschema.symm.trans hschema')
    exact ⟨relative, ⟨hmem, hnone⟩, by rw [text_append]⟩

/-- A location has an alias where all anchors that could explain it say the same. -/
theorem schemaLocationAliases_yields (hsound : Sound library given tables) :
    Yields tables.schemaLocationAliases (fun aliases => ∀ location pointer,
      (location, pointer) ∈ aliases ↔ AliasOf tables (location, pointer) ∧
        ∀ entry, AliasOf tables entry → entry.1 = location → entry.2 = pointer) Never := by
  have hall := Yields.mapM _ tables.anchors fun anchor hanchor =>
    aliasCandidates_yields hsound hanchor
  obtain ⟨candidates, hcandidates, hparts, hanchors⟩ := exists_of_never hall
  have hmem (entry : String × String) : entry ∈ candidates.flatten ↔ AliasOf tables entry := by
    rw [List.mem_flatten]
    constructor
    · intro h
      obtain ⟨part, hpart, hentry⟩ := h
      obtain ⟨anchor, hanchor, hpart⟩ := hparts part hpart
      obtain ⟨schema, relative, h⟩ := (hpart entry).mp hentry
      exact ⟨anchor.1, anchor.2, schema, relative, hanchor, h⟩
    · intro h
      obtain ⟨key, anchored, schema, relative, hanchor, h⟩ := h.place
      obtain ⟨part, hpart, hentries⟩ := hanchors _ hanchor
      exact ⟨part, hpart, (hentries entry).mpr ⟨schema, relative, h⟩⟩
  unfold schemaLocationAliases
  rw [hcandidates]
  intro location pointer
  show (location, pointer) ∈ settle candidates.flatten ↔ _
  rw [mem_settle, hmem]
  exact and_congr_right fun _ => forall_congr' fun entry => by rw [hmem]

/-! ## Errors -/

/-- A document has a value at a location. -/
def HasAt (tables : ResourceTables) (location : QualificationLocation) (value : Value) : Prop :=
  ∃ document ∈ tables.documents, location.resource = document.origin ∧
    location.retrievalUri = document.retrievalUri ∧
    location.pointer.resolve document.document = some value

theorem locationBelow_yields (hsound : Sound library given tables) {uri : String}
    {root : ResourceRoot} (hmem : (uri, root) ∈ tables.aliases) (pointer : String) (value : Value) :
    Yields (tables.locationBelow pointer value root)
      (fun answer => ∀ location, answer = some location → HasAt tables location value) Never := by
  unfold locationBelow
  cases Pointer.parse (root.documentPointer.text ++ pointer) with
  | none => exact fun _ h => nomatch h
  | some documentPointer =>
    obtain ⟨document, hd, -⟩ := root_document hsound hmem
    refine (documentAt_yields hd).bind fun found _ heq => ?_
    subst heq
    intro location hlocation
    by_cases hvalue : documentPointer.resolve found.document = some value
    · rw [if_pos hvalue, Option.some.injEq] at hlocation
      subst hlocation
      exact ⟨found, List.mem_of_getElem? hd, rfl, rfl, hvalue⟩
    · rw [if_neg hvalue] at hlocation
      cases hlocation

theorem firstLocationBelow_yields (hsound : Sound library given tables) (pointer : String)
    (value : Value) (roots : List ResourceRoot)
    (hroots : ∀ root ∈ roots, ∃ uri, (uri, root) ∈ tables.aliases) :
    Yields (tables.firstLocationBelow pointer value roots)
      (fun answer => ∀ location, answer = some location → HasAt tables location value) Never := by
  induction roots with
  | nil => exact fun _ h => nomatch h
  | cons root roots ih =>
    obtain ⟨uri, hmem⟩ := hroots root List.mem_cons_self
    unfold firstLocationBelow
    refine (locationBelow_yields hsound hmem pointer value).bind fun answer _ hanswer => ?_
    cases answer with
    | some location => exact hanswer
    | none => exact ih fun root hroot => hroots root (List.mem_cons_of_mem _ hroot)

/-- The location given for an error about a value is a place of the value, or the pointer as it
is, in the root document. -/
theorem qualificationLocationForError_yields (h : Prepared library given tables)
    (resource : Option String) {pointer : String} {parsed : Pointer}
    (hparsed : Pointer.parse pointer = some parsed) (value : Value) :
    Yields (tables.qualificationLocationForError resource pointer value) (fun location =>
      HasAt tables location value ∨ ∃ document, tables.documents[0]? = some document ∧
        location = qualificationLocation document parsed) Never := by
  have hsound := h.wellFormed.toSound
  have hroots (root : ResourceRoot)
      (hroot : root ∈ (resource.bind fun uri => tables.aliases.lookup uri).toList ++ tables.roots) :
      ∃ uri, (uri, root) ∈ tables.aliases := by
    rcases List.mem_append.mp hroot with hroot | hroot
    · obtain ⟨uri, -, hlookup⟩ := Option.bind_eq_some_iff.mp (Option.mem_toList.mp hroot)
      exact ⟨uri, lookup_mem hlookup⟩
    · exact mem_roots hroot
  unfold qualificationLocationForError
  refine (firstLocationBelow_yields hsound pointer value _ hroots).bind fun answer _ hanswer => ?_
  cases answer with
  | some location => exact .inl (hanswer location rfl)
  | none =>
    obtain ⟨-, first, hfirst, -⟩ := h.root
    rw [List.head?_eq_getElem?] at hfirst
    obtain ⟨document, hd, -⟩ := h.wellFormed.documents.document hfirst
    refine (documentAt_yields hd).bind fun found _ heq => ?_
    subst heq
    rw [hparsed]
    exact .inr ⟨found, hd, rfl⟩

end ResourceTables

/-! ## Prepared graphs -/

open ResourceTables

section Prepare

variable (library : Library) (rootUri : String) (rootDocument : Value)
  (resources : List (String × Value)) (defaultDialect : Option String) (more : Nat)

/-- What is asked of a prepared graph at large has an answer. -/
theorem prepare_answers :
    Yields (prepare library (depthBound library rootUri rootDocument resources + more) rootUri
        rootDocument resources defaultDialect)
      (fun tables =>
        (∃ location, tables.rootLocation library.uris = .ok location) ∧
        (∃ document, tables.validatorRootDocument = .ok document) ∧
        (∀ resource, ∃ document, tables.documentForResource resource = .ok document) ∧
        (∃ schemas, tables.resourceSchemas = .ok schemas) ∧
        ∃ metrics, tables.limitMetrics = .ok metrics) PrepareError.Reported := by
  refine (prepare_yields library rootUri rootDocument resources defaultDialect more).mono
    fun tables htables => ?_
  obtain ⟨given, -, hprepared⟩ := htables
  have hsound := hprepared.wellFormed.toSound
  obtain ⟨-, first, hfirst, hopened⟩ := hprepared.root
  rw [List.head?_eq_getElem?] at hfirst
  obtain ⟨document, hd, -⟩ := hprepared.wellFormed.documents.document hfirst
  refine ⟨locationFromRoot_isOk hprepared.wellFormed hopened.canonical, ?_, fun resource => ?_, ?_,
    ?_⟩
  · obtain ⟨value, hvalue, -⟩ := exists_of_never (validatorDocument_yields hd [] rfl)
    exact ⟨value, hvalue⟩
  · obtain ⟨answer, hanswer, -⟩ := exists_of_never (documentForResource_yields hsound resource)
    exact ⟨answer, hanswer⟩
  · obtain ⟨schemas, hschemas, -⟩ := exists_of_never (resourceSchemas_yields hsound)
    exact ⟨schemas, hschemas⟩
  · obtain ⟨metrics, hmetrics, -⟩ := exists_of_never (limitMetrics_yields hsound)
    exact ⟨metrics, hmetrics⟩

/-- A compiler that goes from the root of a prepared graph along references and applicable
subschemas stays at places of the documents below roots found under their URIs. -/
theorem prepare_walks :
    Yields (prepare library (depthBound library rootUri rootDocument resources + more) rootUri
        rootDocument resources defaultDialect)
      (fun tables => ∀ location, Walk (tables.graph library.uris) tables.root location →
        schemaIn tables.documents location.documentIndex location.documentPointer =
          some location.schema ∧
        location.documentPointer = location.resourceRoot ++ location.pointer ∧
        tables.aliases.lookup location.resource =
          some ⟨location.documentIndex, location.resource, location.resourceRoot⟩ ∧
        (∀ message, (tables.graph library.uris).applicableChildren location ≠
          .error (.panic message)) ∧
        ∀ reference message, (tables.graph library.uris).resolveReference location.resource
          reference ≠ .error (.panic message)) PrepareError.Reported := by
  refine (prepare_yields library rootUri rootDocument resources defaultDialect more).mono
    fun tables htables location hwalk => ?_
  obtain ⟨given, -, hprepared⟩ := htables
  have hinv := hprepared.wellFormed
  obtain ⟨-, first, -, hopened⟩ := hprepared.root
  have hlocated := hwalk.located hinv hopened.canonical
  refine ⟨hlocated.schema, hlocated.below, hlocated.root, fun message h => ?_,
    fun reference message h => ?_⟩
  · cases (applicableChildren_yields hinv hlocated).fails_of_error h
  · cases (resolveReference_yields hinv location.resource reference).fails_of_error h

/-- The published array bounds are those of the indexed schemas. -/
theorem prepare_bounds :
    Yields (prepare library (depthBound library rootUri rootDocument resources + more) rootUri
        rootDocument resources defaultDialect)
      (fun tables => ∃ limits, tables.cardinalityBoundLimits library.uris = .ok limits ∧
        (∀ entry ∈ limits, ∃ root, tables.aliases.lookup entry.1.resource = some root ∧
          schemaIn tables.documents root.documentIndex
            (root.documentPointer ++ entry.1.pointer) = some entry.2) ∧
        (∀ location limit limit', (location, limit) ∈ limits → (location, limit') ∈ limits →
          limit = limit') ∧
        ∀ key ∈ tables.indexedSchemas, ∀ keyword ∈ cardinalityKeywords, ∀ limit,
          boundAt tables key keyword = some limit →
          ∃ root pointer, Deepest tables key.1 key.2.1 root pointer ∧
            (⟨root.resource, pointer ++ [keyword]⟩, limit) ∈ limits) PrepareError.Reported := by
  refine (prepare_yields library rootUri rootDocument resources defaultDialect more).mono
    fun tables htables => ?_
  obtain ⟨given, -, hprepared⟩ := htables
  obtain ⟨limits, hlimits, hvalues, hcomplete⟩ :=
    exists_of_never (cardinalityBoundLimits_yields hprepared)
  refine ⟨limits, hlimits, hvalues, fun location limit limit' hlimit hlimit' => ?_, hcomplete⟩
  obtain ⟨root, hroot, hvalue⟩ := hvalues _ hlimit
  obtain ⟨root', hroot', hvalue'⟩ := hvalues _ hlimit'
  obtain rfl := Option.some.inj (hroot.symm.trans hroot')
  exact Option.some.inj (hvalue.symm.trans hvalue')

/-- The aliases of schema locations are those all anchors agree on. -/
theorem prepare_aliases :
    Yields (prepare library (depthBound library rootUri rootDocument resources + more) rootUri
        rootDocument resources defaultDialect)
      (fun tables => ∃ aliases, tables.schemaLocationAliases = .ok aliases ∧
        ∀ location pointer, (location, pointer) ∈ aliases ↔ AliasOf tables (location, pointer) ∧
          ∀ entry, AliasOf tables entry → entry.1 = location → entry.2 = pointer)
      PrepareError.Reported := by
  refine (prepare_yields library rootUri rootDocument resources defaultDialect more).mono
    fun tables htables => ?_
  obtain ⟨given, -, hprepared⟩ := htables
  exact exists_of_never (schemaLocationAliases_yields hprepared.wellFormed.toSound)

/-- Where an error is located, its value is found, or it is located in the root document as is. -/
theorem prepare_error_locations :
    Yields (prepare library (depthBound library rootUri rootDocument resources + more) rootUri
        rootDocument resources defaultDialect)
      (fun tables => ∀ resource pointer parsed value, Pointer.parse pointer = some parsed →
        ∃ location, tables.qualificationLocationForError resource pointer value = .ok location ∧
          (HasAt tables location value ∨ ∃ document, tables.documents[0]? = some document ∧
            location = qualificationLocation document parsed)) PrepareError.Reported := by
  refine (prepare_yields library rootUri rootDocument resources defaultDialect more).mono
    fun tables htables resource pointer parsed value hparsed => ?_
  obtain ⟨given, -, hprepared⟩ := htables
  exact exists_of_never (qualificationLocationForError_yields hprepared resource hparsed value)

end Prepare

end Schemaform.Resources
