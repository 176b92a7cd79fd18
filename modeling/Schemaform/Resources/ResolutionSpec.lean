import Schemaform.Resources.TargetSpec

/-!
# Resources.ResolutionSpec

References in well-formed tables.

* `Located`: a location stands below a root that is found under its URI.
* `resolveReferenceRaw_yields`: what a reference resolves to is located, and no lookup panics.
* `normalizeLocation_settled`: a settled location is left as it is.
* `resolveReference_stable`: a reference that resolves keeps its place however the tables grow.
-/

namespace Schemaform.Resources

open Association

theorem orInvalid_yields {α : Type} (answer : Option α) :
    Yields (orInvalid answer) (fun a => answer = some a) (· = .invalidGraph) := by
  cases answer with
  | none => rfl
  | some a => rfl

theorem orPanic_yields {α : Type} {message : String} {answer : Option α}
    (h : answer.isSome = true) :
    Yields (orPanic message answer) (fun a => answer = some a) (· = .invalidGraph) := by
  cases answer with
  | none => cases h
  | some a => rfl

theorem text_append (p q : Pointer) : Pointer.text (p ++ q) = p.text ++ q.text := by
  simp [Pointer.text]

/-- A pointer above another that is as long is the other. -/
theorem eq_of_prefix_of_length {p q : Pointer} (h : p <+: q)
    (hlength : q.text.utf8ByteSize ≤ p.text.utf8ByteSize) : p = q := by
  obtain ⟨rest, rfl⟩ := h
  rw [text_append, String.utf8ByteSize_append] at hlength
  have hzero : (Pointer.text rest).utf8ByteSize = 0 := by omega
  have hempty : Pointer.text rest = Pointer.text [] := String.utf8ByteSize_eq_zero_iff.mp hzero
  rw [Pointer.text_inj hempty, List.append_nil]

/-! ## The deepest root -/

namespace ResourceGraph

theorem deeper_cases (left right : ResourceRoot) :
    (deeper left right = left ∨ deeper left right = right) ∧
      left.documentPointer.text.utf8ByteSize ≤ (deeper left right).documentPointer.text.utf8ByteSize ∧
      right.documentPointer.text.utf8ByteSize ≤
        (deeper left right).documentPointer.text.utf8ByteSize := by
  unfold deeper
  split
  · rename_i h
    refine ⟨.inr rfl, ?_, Nat.le_refl _⟩
    omega
  · rename_i h
    refine ⟨.inl rfl, Nat.le_refl _, ?_⟩
    omega

theorem foldl_deeper (first : ResourceRoot) (rest : List ResourceRoot) :
    rest.foldl deeper first ∈ first :: rest ∧ ∀ candidate ∈ first :: rest,
      candidate.documentPointer.text.utf8ByteSize ≤
        (rest.foldl deeper first).documentPointer.text.utf8ByteSize := by
  induction rest generalizing first with
  | nil => simp
  | cons next rest ih =>
    obtain ⟨hmem, hmax⟩ := ih (deeper first next)
    obtain ⟨hcases, hfirst, hnext⟩ := deeper_cases first next
    have hbest := hmax (deeper first next) List.mem_cons_self
    rw [List.foldl_cons]
    constructor
    · rcases List.mem_cons.mp hmem with heq | hmem
      · rw [heq]
        rcases hcases with hleft | hright
        · rw [hleft]
          exact List.mem_cons_self
        · rw [hright]
          exact List.mem_cons_of_mem _ List.mem_cons_self
      · exact List.mem_cons_of_mem _ (List.mem_cons_of_mem _ hmem)
    · intro candidate hcandidate
      rcases List.mem_cons.mp hcandidate with rfl | hcandidate
      · omega
      · rcases List.mem_cons.mp hcandidate with rfl | hcandidate
        · omega
        · exact hmax candidate (List.mem_cons_of_mem _ hcandidate)

/-- A root among the candidates that none of them is longer than, or the fallback without any. -/
theorem deepestResourceRoot_cases (graph : ResourceGraph) (documentIndex : Nat) (target : Pointer)
    (fallback : ResourceRoot) :
    let root := graph.deepestResourceRoot documentIndex target fallback
    (root = fallback ∨ root ∈ graph.aliases.map Prod.snd ∧ root.documentIndex = documentIndex ∧
      root.documentPointer <+: target) ∧
    ∀ candidate ∈ graph.aliases.map Prod.snd, candidate.documentIndex = documentIndex →
      candidate.documentPointer <+: target →
      candidate.documentPointer.text.utf8ByteSize ≤ root.documentPointer.text.utf8ByteSize := by
  intro root
  have hcandidate (candidate : ResourceRoot) :
      candidate ∈ (graph.aliases.map Prod.snd).filter (fun candidate =>
        candidate.documentIndex == documentIndex && candidate.documentPointer.isPrefixOf target) ↔
      candidate ∈ graph.aliases.map Prod.snd ∧ candidate.documentIndex = documentIndex ∧
        candidate.documentPointer <+: target := by
    rw [List.mem_filter, Bool.and_eq_true, beq_iff_eq, List.isPrefixOf_iff_prefix]
  cases hcandidates : (graph.aliases.map Prod.snd).filter (fun candidate =>
      candidate.documentIndex == documentIndex && candidate.documentPointer.isPrefixOf target) with
  | nil =>
    have hroot : root = fallback := by
      show graph.deepestResourceRoot documentIndex target fallback = fallback
      simp only [deepestResourceRoot, hcandidates]
    refine ⟨.inl hroot, fun candidate hmem hindex hprefix => ?_⟩
    have hin := (hcandidate candidate).mpr ⟨hmem, hindex, hprefix⟩
    rw [hcandidates] at hin
    cases hin
  | cons first rest =>
    have hroot : root = rest.foldl deeper first := by
      show graph.deepestResourceRoot documentIndex target fallback = rest.foldl deeper first
      simp only [deepestResourceRoot, hcandidates]
    obtain ⟨hmem, hmax⟩ := foldl_deeper first rest
    rw [← hcandidates] at hmem hmax
    rw [hroot]
    refine ⟨.inr ((hcandidate _).mp hmem), fun candidate hin hindex hprefix => ?_⟩
    exact hmax candidate ((hcandidate candidate).mpr ⟨hin, hindex, hprefix⟩)

/-- Where a fragment leads from a root. -/
def resolveFragment (graph : ResourceGraph) (root : ResourceRoot) (fragment : String) :
    Except GraphError GraphLocation :=
  if fragment = "" then graph.locationFromRoot root
  else if fragment.toList.head? ≠ some '/' then graph.resolveAnchor root fragment
  else graph.resolvePointer root fragment

theorem resolveReferenceRaw_eq (graph : ResourceGraph) (baseResource reference : String) :
    graph.resolveReferenceRaw baseResource reference = (do
      let resolved ← orInvalid (graph.uris.resolveAgainst baseResource reference)
      let normalizedResource ← orInvalid (graph.uris.normalize (splitFragment resolved).1)
      let root ← orInvalid (graph.aliases.lookup normalizedResource)
      graph.resolveFragment root (splitFragment resolved).2) := rfl

end ResourceGraph

namespace ResourceTables

variable {library : Library} {given : List ResourceDocument} {tables tables' : ResourceTables}

@[simp] theorem graph_aliases (uris : UriRules) : (tables.graph uris).aliases = tables.aliases := rfl

@[simp] theorem graph_uris (uris : UriRules) : (tables.graph uris).uris = uris := rfl

theorem graph_schemaAt (uris : UriRules) (documentIndex : Nat) (pointer : Pointer) :
    (tables.graph uris).schemaAt documentIndex pointer =
      schemaIn tables.documents documentIndex pointer := by
  rw [ResourceGraph.schemaAt, graph, schemaIn, List.getElem?_map]
  cases tables.documents[documentIndex]? <;> rfl

theorem graph_anchor (uris : UriRules) (key : String × String) :
    (tables.graph uris).anchors.lookup key =
      (tables.anchors.lookup key).map IndexedAnchor.toAnchorTarget :=
  lookup_map_value IndexedAnchor.toAnchorTarget key tables.anchors

/-- A location below a root that is found under its URI. -/
structure Located (tables : ResourceTables) (location : GraphLocation) : Prop where
  root : tables.aliases.lookup location.resource =
    some ⟨location.documentIndex, location.resource, location.resourceRoot⟩
  below : location.documentPointer = location.resourceRoot ++ location.pointer
  schema : schemaIn tables.documents location.documentIndex location.documentPointer =
    some location.schema

/-- A location with an `$id` that stands at its root. -/
def AtRoot (given : List ResourceDocument) (location : GraphLocation) : Prop :=
  (identityAt given location.documentIndex location.documentPointer).isSome = true →
    location.resourceRoot = location.documentPointer

theorem locationFromRoot_yields (hinv : WellFormed library given tables) {uri : String}
    {root : ResourceRoot} (hroot : tables.aliases.lookup uri = some root) :
    Yields ((tables.graph library.uris).locationFromRoot root)
      (fun location => Located tables location ∧ AtRoot given location ∧
        location.documentIndex = root.documentIndex ∧
        location.documentPointer = root.documentPointer) (· = .invalidGraph) := by
  have hmem := lookup_mem hroot
  have hplace := hinv.addressable _ hmem
  rw [hinv.documents.isSome, ← graph_schemaAt library.uris] at hplace
  refine (orPanic_yields hplace).bind fun schema _ hschema => ?_
  rw [graph_schemaAt] at hschema
  exact ⟨⟨hinv.canonical _ hmem, (List.append_nil _).symm, hschema⟩, fun _ => rfl, rfl, rfl⟩

theorem resolveAnchor_yields (hinv : WellFormed library given tables) (root : ResourceRoot)
    (encodedFragment : String) :
    Yields ((tables.graph library.uris).resolveAnchor root encodedFragment)
      (fun location => Located tables location ∧ AtRoot given location ∧
        ∃ anchor anchored, decodeUriFragment encodedFragment = some anchor ∧
          tables.anchors.lookup (root.resource, anchor) = some anchored ∧
          location.documentIndex = anchored.root.documentIndex ∧
          location.documentPointer = anchored.documentPointer) (· = .invalidGraph) := by
  refine (orInvalid_yields _).bind fun anchor _ hanchor => ?_
  refine (orInvalid_yields _).bind fun target _ htarget => ?_
  rw [graph_anchor] at htarget
  obtain ⟨anchored, hlookup, rfl⟩ := Option.map_eq_some_iff.mp htarget
  have hanchored := hinv.anchored _ (lookup_mem hlookup)
  have hplace := hanchored.addressable
  rw [hinv.documents.isSome, ← graph_schemaAt library.uris] at hplace
  refine (orPanic_yields hplace).bind fun schema _ hschema => ?_
  rw [graph_schemaAt] at hschema
  refine ⟨⟨hanchored.root, hanchored.pointer, hschema⟩, ?_, anchor, anchored, hanchor, hlookup,
    rfl, rfl⟩
  intro hid
  have hpointer := hanchored.settled hid
  show anchored.root.documentPointer = anchored.documentPointer
  rw [hanchored.pointer, hpointer, List.append_nil]

theorem resolvePointer_yields (hinv : WellFormed library given tables) {uri : String}
    {root : ResourceRoot} (hroot : tables.aliases.lookup uri = some root)
    (encodedFragment : String) :
    Yields ((tables.graph library.uris).resolvePointer root encodedFragment)
      (fun location => Located tables location ∧
        (Settled given tables location.documentIndex location.documentPointer →
          AtRoot given location) ∧
        ∃ requested, (decodeUriFragment encodedFragment).bind Pointer.parse = some requested ∧
          location.documentIndex = root.documentIndex ∧
          location.documentPointer = root.documentPointer ++ requested) (· = .invalidGraph) := by
  have hmem := lookup_mem hroot
  refine (orInvalid_yields _).bind fun fragment _ hfragment => ?_
  refine (orInvalid_yields _).bind fun requested _ hrequested => ?_
  dsimp only
  refine (orInvalid_yields _).bind fun schema _ hschema => ?_
  rw [graph_schemaAt] at hschema
  obtain ⟨hdeepest, hmax⟩ := (tables.graph library.uris).deepestResourceRoot_cases
    root.documentIndex (root.documentPointer ++ requested) root
  generalize (tables.graph library.uris).deepestResourceRoot root.documentIndex
    (root.documentPointer ++ requested) root = deepest at hdeepest hmax ⊢
  have hfound : ∃ uri, (uri, deepest) ∈ tables.aliases ∧
      deepest.documentIndex = root.documentIndex := by
    rcases hdeepest with rfl | ⟨hin, hindex, -⟩
    · exact ⟨uri, hmem, rfl⟩
    · obtain ⟨e, he, rfl⟩ := List.mem_map.mp hin
      exact ⟨e.1, he, hindex⟩
  obtain ⟨found, hfound, hindex⟩ := hfound
  refine (orInvalid_yields _).bind fun pointer _ hpointer => ?_
  have hbelow := relativePointer_eq_some.mp hpointer
  refine ⟨⟨?_, hbelow, ?_⟩, ?_, requested, by rw [hfragment]; exact hrequested, hindex, rfl⟩
  · exact hinv.canonical _ hfound
  · rw [hindex]
    exact hschema
  · intro hsettled hid
    obtain ⟨owner, howner, hownerIndex, hownerPointer⟩ := hsettled hid
    have hownerPointer : owner.documentPointer = root.documentPointer ++ requested := hownerPointer
    have hlonger := hmax owner (List.mem_map_of_mem (lookup_mem howner)) (hownerIndex.trans hindex)
      ⟨[], by rw [List.append_nil, hownerPointer]⟩
    rw [hownerPointer] at hlonger
    exact eq_of_prefix_of_length ⟨pointer, hbelow.symm⟩ hlonger

theorem resolveFragment_yields (hinv : WellFormed library given tables) {uri : String}
    {root : ResourceRoot} (hroot : tables.aliases.lookup uri = some root) (fragment : String) :
    Yields ((tables.graph library.uris).resolveFragment root fragment)
      (fun location => Located tables location ∧
        (Settled given tables location.documentIndex location.documentPointer →
          AtRoot given location)) (· = .invalidGraph) := by
  unfold ResourceGraph.resolveFragment
  split
  · exact (locationFromRoot_yields hinv hroot).mono fun location h => ⟨h.1, fun _ => h.2.1⟩
  · split
    · exact (resolveAnchor_yields hinv root _).mono fun location h => ⟨h.1, fun _ => h.2.1⟩
    · exact (resolvePointer_yields hinv hroot _).mono fun location h => ⟨h.1, h.2.1⟩

/-- A reference leads below a root, or nowhere. -/
theorem resolveReferenceRaw_yields (hinv : WellFormed library given tables)
    (baseResource reference : String) :
    Yields ((tables.graph library.uris).resolveReferenceRaw baseResource reference)
      (fun location => Located tables location ∧
        (Settled given tables location.documentIndex location.documentPointer →
          AtRoot given location)) (· = .invalidGraph) := by
  rw [ResourceGraph.resolveReferenceRaw_eq]
  refine (orInvalid_yields _).bind fun resolved _ _ => ?_
  refine (orInvalid_yields _).bind fun normalized _ _ => ?_
  refine (orInvalid_yields _).bind fun root _ hroot => ?_
  exact resolveFragment_yields hinv hroot _

/-! ## Settled locations -/

theorem normalizeLocation_atRoot (hinv : WellFormed library given tables) {location : GraphLocation}
    (hlocated : Located tables location) (hroot : AtRoot given location) :
    (tables.graph library.uris).normalizeLocation location = .ok location := by
  unfold ResourceGraph.normalizeLocation
  split
  · rfl
  · rename_i hnot
    have hidentity : identityAt given location.documentIndex location.documentPointer =
        textMember location.schema "$id" := by
      rw [hinv.documents.identityAt, identityAt, hlocated.schema]
      rfl
    rw [AtRoot, hidentity] at hroot
    have hid : (location.schema.get "$id").bind Value.asString = none := by
      cases hid : (location.schema.get "$id").bind Value.asString with
      | none => rfl
      | some id =>
        have hpointer := hroot (by rw [textMember, hid]; rfl)
        refine absurd ?_ hnot
        rw [graph_aliases, hlocated.root]
        simp [hpointer]
    rw [hid]

theorem normalizeLocation_settles (hinv : WellFormed library given tables)
    {location target : GraphLocation} (hlocated : Located tables location)
    (h : (tables.graph library.uris).normalizeLocation location = .ok target) :
    Settled given tables location.documentIndex location.documentPointer := by
  intro hid
  rw [hinv.documents.identityAt, identityAt, hlocated.schema] at hid
  have hid : ((location.schema.get "$id").bind Value.asString).isSome = true := hid
  unfold ResourceGraph.normalizeLocation at h
  split at h
  · rename_i hat
    rw [graph_aliases, hlocated.root] at hat
    simp only [Option.any_some, Bool.and_eq_true, beq_iff_eq] at hat
    exact ⟨⟨location.documentIndex, location.resource, location.resourceRoot⟩, hlocated.root,
      rfl, hat.2⟩
  · split at h
    · rename_i hnone
      rw [hnone] at hid
      cases hid
    · obtain ⟨canonical, -, h⟩ := bind_eq_ok.mp h
      obtain ⟨root, hroot, h⟩ := bind_eq_ok.mp h
      split at h
      · cases h
      · rename_i hat
        have hlookup := Yields.returns_of_ok (orInvalid_yields _) hroot
        simp only [ne_eq, not_or, not_not] at hat
        exact ⟨root, hinv.canonical _ (lookup_mem hlookup), hat⟩

/-- Resolution is the raw one, where its target is settled. -/
theorem resolveReference_eq_ok (hinv : WellFormed library given tables)
    {baseResource reference : String} {location : GraphLocation} :
    (tables.graph library.uris).resolveReference baseResource reference = .ok location ↔
      (tables.graph library.uris).resolveReferenceRaw baseResource reference = .ok location ∧
        Settled given tables location.documentIndex location.documentPointer := by
  unfold ResourceGraph.resolveReference
  rw [bind_eq_ok]
  constructor
  · intro h
    obtain ⟨raw, hraw, h⟩ := h
    have hyields := Yields.returns_of_ok (resolveReferenceRaw_yields hinv baseResource reference) hraw
    have hsettled := normalizeLocation_settles hinv hyields.1 h
    rw [normalizeLocation_atRoot hinv hyields.1 (hyields.2 hsettled), Except.ok.injEq] at h
    subst h
    exact ⟨hraw, hsettled⟩
  · intro h
    have hyields := Yields.returns_of_ok (resolveReferenceRaw_yields hinv baseResource reference) h.1
    exact ⟨location, h.1, normalizeLocation_atRoot hinv hyields.1 (hyields.2 h.2)⟩

/-! ## Growth -/

theorem locationFromRoot_isOk (hinv : WellFormed library given tables) {uri : String}
    {root : ResourceRoot} (hroot : tables.aliases.lookup uri = some root) :
    ∃ location, (tables.graph library.uris).locationFromRoot root = .ok location := by
  have hplace := hinv.addressable _ (lookup_mem hroot)
  rw [hinv.documents.isSome, ← graph_schemaAt library.uris] at hplace
  obtain ⟨schema, hschema⟩ := Option.isSome_iff_exists.mp hplace
  refine ⟨_, bind_eq_ok.mpr ⟨schema, ?_, rfl⟩⟩
  rw [hschema]
  rfl

theorem resolveAnchor_isOk (hinv : WellFormed library given tables) {root : ResourceRoot}
    {encodedFragment anchor : String} {anchored : IndexedAnchor}
    (hdecode : decodeUriFragment encodedFragment = some anchor)
    (hanchor : tables.anchors.lookup (root.resource, anchor) = some anchored) :
    ∃ location, (tables.graph library.uris).resolveAnchor root encodedFragment = .ok location := by
  have hplace := (hinv.anchored _ (lookup_mem hanchor)).addressable
  rw [hinv.documents.isSome, ← graph_schemaAt library.uris] at hplace
  obtain ⟨schema, hschema⟩ := Option.isSome_iff_exists.mp hplace
  refine ⟨_, bind_eq_ok.mpr ⟨anchor, by rw [hdecode]; rfl,
    bind_eq_ok.mpr ⟨anchored.toAnchorTarget, ?_, bind_eq_ok.mpr ⟨schema, ?_, rfl⟩⟩⟩⟩
  · rw [graph_anchor, hanchor]
    rfl
  · rw [hschema]
    rfl

theorem resolvePointer_isOk (library : Library) {root : ResourceRoot} {encodedFragment : String}
    {requested : Pointer}
    (hrequested : (decodeUriFragment encodedFragment).bind Pointer.parse = some requested)
    (hplace : (schemaIn tables.documents root.documentIndex
      (root.documentPointer ++ requested)).isSome = true) :
    ∃ location, (tables.graph library.uris).resolvePointer root encodedFragment = .ok location := by
  obtain ⟨fragment, hfragment, hparse⟩ := Option.bind_eq_some_iff.mp hrequested
  obtain ⟨schema, hschema⟩ := Option.isSome_iff_exists.mp hplace
  obtain ⟨hdeepest, -⟩ := (tables.graph library.uris).deepestResourceRoot_cases
    root.documentIndex (root.documentPointer ++ requested) root
  have hprefix : ((tables.graph library.uris).deepestResourceRoot root.documentIndex
      (root.documentPointer ++ requested) root).documentPointer <+:
        root.documentPointer ++ requested := by
    rcases hdeepest with heq | ⟨-, -, hprefix⟩
    · rw [heq]
      exact List.prefix_append _ _
    · exact hprefix
  obtain ⟨pointer, hpointer⟩ := hprefix
  refine ⟨_, bind_eq_ok.mpr ⟨fragment, by rw [hfragment]; rfl, bind_eq_ok.mpr ⟨requested,
    by rw [hparse]; rfl, bind_eq_ok.mpr ⟨schema, ?_, bind_eq_ok.mpr ⟨pointer, ?_, rfl⟩⟩⟩⟩⟩
  · rw [graph_schemaAt, hschema]
    rfl
  · rw [relativePointer_eq_some.mpr hpointer.symm]
    rfl

/-- A fragment leads to the same place in larger tables. -/
theorem resolveFragment_grows (hinv : WellFormed library given tables)
    (hinv' : WellFormed library given tables') (hgrows : Grows tables tables') {uri : String}
    {root : ResourceRoot} (hroot : tables.aliases.lookup uri = some root) {fragment : String}
    {location : GraphLocation}
    (h : (tables.graph library.uris).resolveFragment root fragment = .ok location) :
    ∃ location', (tables'.graph library.uris).resolveFragment root fragment = .ok location' ∧
      location'.documentIndex = location.documentIndex ∧
      location'.documentPointer = location.documentPointer := by
  have hroot' := hgrows.aliases _ _ hroot
  unfold ResourceGraph.resolveFragment at h ⊢
  split at h
  · rename_i hempty
    rw [if_pos hempty]
    obtain ⟨location', hlocation'⟩ := locationFromRoot_isOk hinv' hroot'
    have hfrom := Yields.returns_of_ok (locationFromRoot_yields hinv hroot) h
    have hfrom' := Yields.returns_of_ok (locationFromRoot_yields hinv' hroot') hlocation'
    exact ⟨location', hlocation', by rw [hfrom.2.2.1, hfrom'.2.2.1],
      by rw [hfrom.2.2.2, hfrom'.2.2.2]⟩
  · rename_i hfull
    rw [if_neg hfull]
    split at h
    · rename_i hanchor
      rw [if_pos hanchor]
      obtain ⟨-, -, anchor, anchored, hdecode, hanchored, hindex, hpointer⟩ :=
        Yields.returns_of_ok (resolveAnchor_yields hinv root _) h
      have hanchored' := hgrows.anchors _ _ hanchored
      obtain ⟨location', hlocation'⟩ := resolveAnchor_isOk hinv' hdecode hanchored'
      obtain ⟨-, -, anchor', anchored'', hdecode', hlookup', hindex', hpointer'⟩ :=
        Yields.returns_of_ok (resolveAnchor_yields hinv' root _) hlocation'
      obtain rfl := Option.some.inj (hdecode.symm.trans hdecode')
      obtain rfl := Option.some.inj (hanchored'.symm.trans hlookup')
      exact ⟨location', hlocation', by rw [hindex, hindex'], by rw [hpointer, hpointer']⟩
    · rename_i hpath
      rw [if_neg hpath]
      obtain ⟨hlocated, -, requested, hrequested, hindex, hpointer⟩ :=
        Yields.returns_of_ok (resolvePointer_yields hinv hroot _) h
      have hplace : (schemaIn tables'.documents root.documentIndex
          (root.documentPointer ++ requested)).isSome = true := by
        rw [← hgrows.documents.isSome, ← hindex, ← hpointer, hlocated.schema]
        rfl
      obtain ⟨location', hlocation'⟩ := resolvePointer_isOk library hrequested hplace
      obtain ⟨-, -, requested', hrequested', hindex', hpointer'⟩ :=
        Yields.returns_of_ok (resolvePointer_yields hinv' hroot' _) hlocation'
      obtain rfl := Option.some.inj (hrequested.symm.trans hrequested')
      exact ⟨location', hlocation', by rw [hindex, hindex'], by rw [hpointer, hpointer']⟩

/-- The raw resolution of a reference finds the same place in larger tables. -/
theorem resolveReferenceRaw_grows (hinv : WellFormed library given tables)
    (hinv' : WellFormed library given tables') (hgrows : Grows tables tables')
    {baseResource reference : String} {location : GraphLocation}
    (h : (tables.graph library.uris).resolveReferenceRaw baseResource reference = .ok location) :
    ∃ location', (tables'.graph library.uris).resolveReferenceRaw baseResource reference =
        .ok location' ∧ location'.documentIndex = location.documentIndex ∧
      location'.documentPointer = location.documentPointer := by
  rw [ResourceGraph.resolveReferenceRaw_eq] at h ⊢
  obtain ⟨resolved, hresolved, h⟩ := bind_eq_ok.mp h
  obtain ⟨normalized, hnormalized, h⟩ := bind_eq_ok.mp h
  obtain ⟨root, hlookup, h⟩ := bind_eq_ok.mp h
  have hroot := Yields.returns_of_ok (orInvalid_yields _) hlookup
  obtain ⟨location', hlocation', hplace⟩ := resolveFragment_grows hinv hinv' hgrows hroot h
  refine ⟨location', bind_eq_ok.mpr ⟨resolved, hresolved, bind_eq_ok.mpr ⟨normalized, hnormalized,
    bind_eq_ok.mpr ⟨root, ?_, hlocation'⟩⟩⟩, hplace⟩
  rw [graph_aliases, hgrows.aliases _ _ hroot]
  rfl

/-- A reference that resolves leads to one place however the tables grow. -/
theorem resolveReference_stable (hinv : WellFormed library given tables)
    (hinv' : WellFormed library given tables') (hgrows : Grows tables tables')
    {baseResource reference : String} {location : GraphLocation}
    (h : (tables.graph library.uris).resolveReference baseResource reference = .ok location) :
    ∃ location', (tables'.graph library.uris).resolveReference baseResource reference =
        .ok location' ∧ location'.documentIndex = location.documentIndex ∧
      location'.documentPointer = location.documentPointer := by
  obtain ⟨hraw, hsettled⟩ := (resolveReference_eq_ok hinv).mp h
  obtain ⟨location', hraw', hindex, hpointer⟩ := resolveReferenceRaw_grows hinv hinv' hgrows hraw
  refine ⟨location', (resolveReference_eq_ok hinv').mpr ⟨hraw', ?_⟩, hindex, hpointer⟩
  rw [hindex, hpointer]
  exact hsettled.grows hgrows

end ResourceTables

end Schemaform.Resources
