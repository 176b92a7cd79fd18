import Schemaform.Resources.ReferenceSpec

/-!
# Resources.QualifySpec

The traversal over references and subschemas.

* `Advances`: the tables grow, and a reference whose text changed leads to a visited place from
  then on.
* `Closed`: the subschemas of a visited schema are visited, and its references lead to visited
  places.
* `qualificationRules`, `qualifyReferences_yields`: the whole traversal keeps the tables well
  formed, closes every schema it visits and ends.
-/

namespace Schemaform.Resources

open Association

open ResourceTables

/-! ## Nodes -/

/-- The resource a schema is visited under. -/
def nodeResource (library : Library) (given : List ResourceDocument) (node : QualificationNode) :
    String :=
  if node.applyIdentity then
    ((identityAt given node.documentIndex node.pointer).map fun identity =>
      (resolveResourceUri library.uris node.inheritedResource identity).getD
        node.inheritedResource).getD node.inheritedResource
  else node.inheritedResource

def nodeKey (library : Library) (given : List ResourceDocument) (node : QualificationNode) :
    SchemaKey :=
  (node.documentIndex, node.pointer, nodeResource library given node)

/-- A node whose resource is one of its place. -/
structure NodeReady (library : Library) (given : List ResourceDocument) (node : QualificationNode) :
    Prop where
  based : node.inheritedResource ∈ basesAt library.uris given node.documentIndex node.pointer
  identity : node.applyIdentity = true → ∀ identity canonical,
    identityAt given node.documentIndex node.pointer = some identity →
    resolveResourceUri library.uris node.inheritedResource identity = some canonical →
    canonical ∈ basesAt library.uris given node.documentIndex node.pointer

variable {library : Library} {given : List ResourceDocument}

theorem NodeReady.resource {node : QualificationNode} (h : NodeReady library given node) :
    nodeResource library given node ∈
      basesAt library.uris given node.documentIndex node.pointer := by
  unfold nodeResource
  by_cases happly : node.applyIdentity = true
  · rw [if_pos happly]
    cases hid : identityAt given node.documentIndex node.pointer with
    | none => exact h.based
    | some identity =>
      rw [Option.map_some, Option.getD_some]
      cases hresolve : resolveResourceUri library.uris node.inheritedResource identity with
      | none => exact h.based
      | some canonical => exact h.identity happly identity canonical hid hresolve
  · rw [if_neg happly]
    exact h.based

theorem NodeReady.document {node : QualificationNode} (h : NodeReady library given node) :
    ∃ document, given[node.documentIndex]? = some document := by
  cases hd : given[node.documentIndex]? with
  | some document => exact ⟨document, rfl⟩
  | none =>
    have hbased := h.based
    rw [basesAt, hd] at hbased
    cases hbased

/-- A place below one with the resource. -/
theorem NodeReady.below {documentIndex : Nat} {pointer rest : Pointer} {resource : String}
    (hbased : resource ∈ basesAt library.uris given documentIndex pointer) (hrest : rest ≠ []) :
    NodeReady library given ⟨documentIndex, pointer ++ rest, resource, true⟩ where
  based := basesAt_append hbased rest
  identity _ _ _ hid hresolve := basesAt_identity hbased hrest hid hresolve

/-! ## Progress -/

/-- A reference leads to a visited place. -/
structure Leads (library : Library) (given : List ResourceDocument) (state : Qualification)
    (resource text : String) : Prop where
  wellFormed : WellFormed library given state.tables
  target : ∃ location, (state.tables.graph library.uris).resolveReference resource text =
      .ok location ∧
    ∃ under, (location.documentIndex, location.documentPointer, under) ∈ state.visited

/-- A text that leads to a visited place from anywhere. -/
def Lasting (library : Library) (given : List ResourceDocument) (state : Qualification)
    (text : String) : Prop :=
  ∀ base, (∃ index place, (index, place, base) ∈ places library.uris given) →
    Leads library given state base text

structure Advances (library : Library) (given : List ResourceDocument)
    (state state' : Qualification) : Prop where
  grows : Grows state.tables state'.tables
  visited : ∀ key ∈ state.visited, key ∈ state'.visited
  wellFormed : WellFormed library given state.tables → WellFormed library given state'.tables
  references : ReadsBack library given → ∀ index place text,
    referenceAt state'.tables.documents index place "$ref" = some text →
    referenceAt state.tables.documents index place "$ref" = some text ∨
      Lasting library given state' text

section Advances

variable {state state' state'' : Qualification} {resource text : String}

theorem Leads.advances (h : Leads library given state resource text)
    (hadvances : Advances library given state state') :
    Leads library given state' resource text := by
  have hwellFormed := hadvances.wellFormed h.wellFormed
  obtain ⟨location, hlocation, under, hunder⟩ := h.target
  obtain ⟨location', hlocation', hindex, hpointer⟩ :=
    resolveReference_stable h.wellFormed hwellFormed hadvances.grows hlocation
  refine ⟨hwellFormed, location', hlocation', under, ?_⟩
  rw [hindex, hpointer]
  exact hadvances.visited _ hunder

theorem Advances.refl (state : Qualification) : Advances library given state state :=
  ⟨.refl state.tables, fun _ h => h, fun h => h, fun _ _ _ _ h => .inl h⟩

theorem Advances.trans (h : Advances library given state state')
    (h' : Advances library given state' state'') : Advances library given state state'' where
  grows := h.grows.trans h'.grows
  visited key hkey := h'.visited key (h.visited key hkey)
  wellFormed hinv := h'.wellFormed (h.wellFormed hinv)
  references hreads index place text htext := by
    rcases h'.references hreads index place text htext with htext | hlasting
    · rcases h.references hreads index place text htext with htext | hlasting
      · exact .inl htext
      · exact .inr fun base hbase => (hlasting base hbase).advances h'
    · exact .inr hlasting

end Advances

/-! ## Closure -/

/-- What is promised of a reference. -/
def ReferenceDone (library : Library) (given : List ResourceDocument) (state : Qualification)
    (resource text : String) : Prop :=
  builtInReferenceResolves library resource text = true ∨ Leads library given state resource text

theorem ReferenceDone.advances {state state' : Qualification} {resource text : String}
    (h : ReferenceDone library given state resource text)
    (hadvances : Advances library given state state') :
    ReferenceDone library given state' resource text :=
  h.imp_right fun h => h.advances hadvances

def referenceKeywords : List String := ["$ref", "$dynamicRef"]

structure Closed (library : Library) (given : List ResourceDocument) (key : SchemaKey)
    (state : Qualification) : Prop where
  place : key ∈ places library.uris given
  dialect : key.2.1 ≠ [] → ∀ dialect, referenceAt given key.1 key.2.1 "$schema" = some dialect →
    dialect = draft202012
  children : ∀ child ∈ childrenAt given key.1 key.2.1,
    nodeKey library given ⟨key.1, child, key.2.2, true⟩ ∈ state.visited
  references : ReadsBack library given → ∀ keyword ∈ referenceKeywords, ∀ text,
    referenceAt state.tables.documents key.1 key.2.1 keyword = some text →
    ReferenceDone library given state key.2.2 text

theorem Closed.advances {key : SchemaKey} {state state' : Qualification}
    (h : Closed library given key state) (hadvances : Advances library given state state') :
    Closed library given key state' where
  place := h.place
  dialect := h.dialect
  children child hchild := hadvances.visited _ (h.children child hchild)
  references hreads keyword hkeyword text htext := by
    by_cases href : keyword = "$ref"
    · subst href
      rcases hadvances.references hreads _ _ _ htext with htext | hlasting
      · exact (h.references hreads _ hkeyword text htext).advances hadvances
      · exact .inr (hlasting key.2.2 ⟨key.1, key.2.1, h.place⟩)
    · rw [← referenceAt_same hadvances.grows.documents href] at htext
      exact (h.references hreads _ hkeyword text htext).advances hadvances

/-! ## Meaning -/

/-- No schema is visited under two resources. -/
def SingleBase (visited : List SchemaKey) : Prop :=
  ∀ index place resource resource', (index, place, resource) ∈ visited →
    (index, place, resource') ∈ visited → resource = resource'

theorem SingleBase.of_subset {visited visited' : List SchemaKey} (h : SingleBase visited')
    (hsubset : ∀ key ∈ visited, key ∈ visited') : SingleBase visited :=
  fun index place resource resource' hkey hkey' =>
    h index place resource resource' (hsubset _ hkey) (hsubset _ hkey')

/-- Two texts that lead from a base to one place. -/
def SamePlace (library : Library) (tables : ResourceTables) (base text text' : String) : Prop :=
  ∃ location location', (tables.graph library.uris).resolveReference base text = .ok location ∧
    (tables.graph library.uris).resolveReference base text' = .ok location' ∧
    location.documentIndex = location'.documentIndex ∧
    location.documentPointer = location'.documentPointer

theorem SamePlace.grows {tables tables' : ResourceTables} {base text text' : String}
    (h : SamePlace library tables base text text') (hinv : WellFormed library given tables)
    (hinv' : WellFormed library given tables') (hgrows : Grows tables tables') :
    SamePlace library tables' base text text' := by
  obtain ⟨location, location', hlocation, hlocation', hindex, hpointer⟩ := h
  obtain ⟨found, hfound, hfoundIndex, hfoundPointer⟩ :=
    resolveReference_stable hinv hinv' hgrows hlocation
  obtain ⟨found', hfound', hfoundIndex', hfoundPointer'⟩ :=
    resolveReference_stable hinv hinv' hgrows hlocation'
  exact ⟨found, found', hfound, hfound', by rw [hfoundIndex, hfoundIndex', hindex],
    by rw [hfoundPointer, hfoundPointer', hpointer]⟩

/-- What every stage keeps. -/
structure Progress (library : Library) (given : List ResourceDocument) (state : Qualification) :
    Prop where
  wellFormed : WellFormed library given state.tables
  places : ∀ key ∈ state.visited, key ∈ places library.uris given
  nodup : state.visited.Nodup
  traversal : state.tables.qualificationTraversal = state.visited.length
  /-- Before a schema is visited its reference is as it was given. -/
  untouched : ∀ index place, (∀ resource, (index, place, resource) ∉ state.visited) →
    referenceAt state.tables.documents index place "$ref" = referenceAt given index place "$ref"
  /-- Afterwards it is as it was given, or leads where that leads. -/
  meant : ReadsBack library given → SingleBase state.visited → ∀ index place resource text,
    (index, place, resource) ∈ state.visited →
    referenceAt state.tables.documents index place "$ref" = some text →
    ∃ original, referenceAt given index place "$ref" = some original ∧
      (text = original ∨ SamePlace library state.tables resource original text)

def EdgeReady (library : Library) (given : List ResourceDocument) :
    QualificationEdge → Qualification → Prop
  | .child node, _ => NodeReady library given node
  | .reference documentIndex pointer resource keyword text, state =>
    (documentIndex, pointer, resource) ∈ places library.uris given ∧
      (∀ documents, SameDocuments given documents →
        (referenceAt documents documentIndex pointer keyword).isSome = true) ∧
      (documentIndex, pointer, resource) ∈ state.visited ∧
      (SingleBase state.visited → keyword = "$ref" →
        referenceAt given documentIndex pointer "$ref" = some text)

theorem EdgeReady.advances {edge : QualificationEdge} {state state' : Qualification}
    (h : EdgeReady library given edge state) (hadvances : Advances library given state state') :
    EdgeReady library given edge state' := by
  cases edge with
  | child node => exact h
  | reference =>
    obtain ⟨hplace, hreference, hvisited, htext⟩ := h
    exact ⟨hplace, hreference, hadvances.visited _ hvisited,
      fun hsingle => htext (hsingle.of_subset hadvances.visited)⟩

def EdgeDone (library : Library) (given : List ResourceDocument) :
    QualificationEdge → Qualification → Prop
  | .child node, state => nodeKey library given node ∈ state.visited
  | .reference _ _ resource _ text, state => ReferenceDone library given state resource text

theorem EdgeDone.advances {edge : QualificationEdge} {state state' : Qualification}
    (h : EdgeDone library given edge state) (hadvances : Advances library given state state') :
    EdgeDone library given edge state' := by
  cases edge with
  | child node => exact hadvances.visited _ h
  | reference => exact ReferenceDone.advances h hadvances

/-! ## Entering -/

theorem checkSchema_yields (document : ResourceDocument) (pointer : Pointer) (schema : Value) :
    Yields (Qualification.checkSchema library document pointer schema)
      (fun _ => pointer ≠ [] → ∀ dialect, textMember schema "$schema" = some dialect →
        dialect = draft202012) PrepareError.Reported := by
  have hvalid : Yields (Qualification.checkSchema.checkValid library document pointer schema)
      (fun _ => True) PrepareError.Reported := by
    unfold Qualification.checkSchema.checkValid
    cases library.validate schema with
    | none => trivial
    | some path => trivial
  unfold Qualification.checkSchema
  cases hschema : textMember schema "$schema" with
  | none => exact hvalid.mono fun _ _ _ _ h => nomatch h
  | some dialect =>
    by_cases hswitch : pointer ≠ [] ∧ dialect ≠ draft202012
    · simp only [if_pos hswitch]
      trivial
    · simp only [if_neg hswitch]
      refine hvalid.mono fun _ _ hpointer named hnamed => ?_
      obtain rfl := Option.some.inj hnamed
      exact not_not.mp fun hne => hswitch ⟨hpointer, hne⟩

theorem resourceOf_yields {document : ResourceDocument} {node : QualificationNode} {schema : Value}
    (hid : identityAt given node.documentIndex node.pointer = textMember schema "$id") :
    Yields (Qualification.resourceOf library document node schema)
      (fun resource => resource = nodeResource library given node) PrepareError.Reported := by
  unfold Qualification.resourceOf nodeResource
  rw [hid]
  by_cases happly : node.applyIdentity = true
  · rw [if_pos happly, if_pos happly]
    cases textMember schema "$id" with
    | none => rfl
    | some identity =>
      dsimp only
      cases hresolve : resolveResourceUri library.uris node.inheritedResource identity with
      | none => trivial
      | some resource => simp [hresolve]
  · rw [if_neg happly, if_neg happly]
    rfl

theorem textMember_forget_ref (v : Value) :
    (textMember (v.forget "$ref") "$ref").isSome = (textMember v "$ref").isSome := by
  cases v with
  | object members =>
    rw [textMember, textMember, Value.forget, Value.get, Value.get, Value.get_forgetMembers]
    cases SortedMap.get "$ref" members with
    | none => rfl
    | some c =>
      have hstring (u : Value) : u.asString.isSome = u.isString := by cases u <;> rfl
      rw [Option.map_some, Option.bind_some, Option.bind_some, hstring, hstring, Value.forgetAt]
      split
      · rename_i hc
        rw [hc.2]
        rfl
      · exact Value.isString_forget "$ref" c
  | _ => rfl

/-- Whether there is a reference does not change. -/
theorem referenceAt_isSome {documents documents' : List ResourceDocument}
    (h : SameDocuments documents documents') {documentIndex : Nat} {pointer : Pointer}
    {keyword : String}
    (hsome : (referenceAt documents documentIndex pointer keyword).isSome = true) :
    (referenceAt documents' documentIndex pointer keyword).isSome = true := by
  by_cases href : keyword = "$ref"
  · subst href
    obtain ⟨text, htext⟩ := Option.isSome_iff_exists.mp hsome
    obtain ⟨schema, hschema, htext⟩ := Option.bind_eq_some_iff.mp htext
    obtain ⟨schema', hschema', halike⟩ := h.schemaIn hschema
    rw [referenceAt, hschema', Option.bind_some]
    have hisSome : (textMember schema "$ref").isSome = true := by rw [htext]; rfl
    rcases halike with halike | ⟨htextual, -⟩
    · rw [← textMember_forget_ref, ← halike, textMember_forget_ref]
      exact hisSome
    · cases schema with
      | string s =>
        have htext : (none : Option String) = some text := htext
        cases htext
      | _ => cases htextual
  · rw [← referenceAt_same h href]
    exact hsome

theorem enter_yields {node : QualificationNode} {state : Qualification}
    (hprogress : Progress library given state) (hready : NodeReady library given node) :
    Yields (Qualification.enter library node state) (fun entered => ∀ state' edges,
      entered = some (state', edges) → Advances library given state state' ∧
      Progress library given state' ∧
      unseen library.uris given state'.visited < unseen library.uris given state.visited ∧
      nodeKey library given node ∈ state'.visited ∧ (∀ e ∈ edges, EdgeReady library given e state') ∧
      ∀ key ∈ state'.visited, key ∈ state.visited ∨ ∀ state'', Advances library given state' state'' →
        (∀ e ∈ edges, EdgeDone library given e state'') → Closed library given key state'')
      PrepareError.Reported := by
  have hinv := hprogress.wellFormed
  obtain ⟨original, horiginal⟩ := hready.document
  obtain ⟨current, hcurrent, -⟩ := hinv.documents.document horiginal
  unfold Qualification.enter
  refine (documentAt_yields hcurrent).bind fun document _ heq => ?_
  subst heq
  refine (orInvalidGraph_yields _).bind fun schema _ hschema => ?_
  obtain ⟨hschemaIn, hplace, hidentity, hchildren⟩ :=
    schemaIn_of_document hinv.toSound hcurrent hschema
  refine (checkSchema_yields _ _ _).bind fun _ _ hdialect => ?_
  refine (resourceOf_yields hidentity).bind fun resource _ hresource => ?_
  subst hresource
  have hkeyPlace : nodeKey library given node ∈ places library.uris given :=
    mem_places hplace hready.resource
  dsimp only
  by_cases hkey :
      (node.documentIndex, node.pointer, nodeResource library given node) ∈ state.visited
  · rw [if_pos hkey]
    exact fun _ _ h => nomatch h
  · rw [if_neg hkey]
    intro state' edges heq
    simp only [Option.some.injEq, Prod.mk.injEq] at heq
    obtain ⟨rfl, rfl⟩ := heq
    have hcounted : WellFormed library given { state.tables with
        qualificationTraversal := state.tables.qualificationTraversal + 1
        referenceCount := state.tables.referenceCount +
          (textMembers schema ["$ref", "$dynamicRef"]).length } :=
      hinv.of_documents hinv.documents rfl rfl rfl rfl
    -- under a single base no schema at the place was visited before
    have hfirst (hsingle : SingleBase (nodeKey library given node :: state.visited)) :
        referenceAt state.tables.documents node.documentIndex node.pointer "$ref" =
          referenceAt given node.documentIndex node.pointer "$ref" := by
      refine hprogress.untouched _ _ fun resource hmem => hkey ?_
      have hsame := hsingle node.documentIndex node.pointer resource
        (nodeResource library given node) (List.mem_cons_of_mem _ hmem) List.mem_cons_self
      rw [← hsame]
      exact hmem
    refine ⟨⟨⟨rfl, fun _ _ h => h, fun _ _ h => h, fun _ h => h, rfl⟩,
      fun _ h => List.mem_cons_of_mem _ h, fun _ => hcounted, fun _ _ _ _ h => .inl h⟩,
      ⟨hcounted, ?_, List.nodup_cons.mpr ⟨hkey, hprogress.nodup⟩, ?_, ?_, ?_⟩,
      unseen_cons_lt hkeyPlace hkey, List.mem_cons_self, ?_, ?_⟩
    · intro key hmem
      rcases List.mem_cons.mp hmem with rfl | hmem
      · exact hkeyPlace
      · exact hprogress.places key hmem
    · rw [List.length_cons, ← hprogress.traversal]
    · exact fun index place hunvisited => hprogress.untouched index place fun resource hmem =>
        hunvisited resource (List.mem_cons_of_mem _ hmem)
    · intro hreads hsingle index place resource text hmem htext
      rcases List.mem_cons.mp hmem with heq | hmem
      · obtain ⟨rfl, rfl, -⟩ : index = node.documentIndex ∧ place = node.pointer ∧ _ := by
          simpa [nodeKey] using heq
        exact ⟨text, (hfirst hsingle).symm.trans htext, .inl rfl⟩
      · exact hprogress.meant hreads (hsingle.of_subset fun _ h => List.mem_cons_of_mem _ h)
          index place resource text hmem htext
    · intro edge hedge
      rcases List.mem_append.mp hedge with hedge | hedge
      · obtain ⟨⟨keyword, text⟩, hreference, rfl⟩ := List.mem_map.mp hedge
        obtain ⟨found, -, htext⟩ := List.mem_filterMap.mp hreference
        obtain ⟨_, htext, heq⟩ := Option.map_eq_some_iff.mp htext
        cases heq
        have hat : referenceAt state.tables.documents node.documentIndex node.pointer keyword =
            some text := by
          rw [referenceAt, hschemaIn, Option.bind_some, htext]
        refine ⟨hkeyPlace, fun documents hsame => ?_, List.mem_cons_self, fun hsingle href => ?_⟩
        · refine referenceAt_isSome (hinv.documents.symm.trans hsame) ?_
          rw [hat]
          rfl
        · subst href
          exact (hfirst hsingle).symm.trans hat
      · obtain ⟨child, hchild, rfl⟩ := List.mem_map.mp hedge
        obtain ⟨rest, hrest, rfl⟩ := below_of_mem_keywordChildren hchild
        exact NodeReady.below hready.resource hrest
    · intro key hmem
      rcases List.mem_cons.mp hmem with rfl | hmem
      · refine .inr fun state'' hadvances hall => ⟨hkeyPlace, ?_, fun child hchild => ?_, ?_⟩
        · intro hpointer dialect hd
          rw [referenceAt_same hinv.documents (by decide), referenceAt, hschemaIn] at hd
          exact hdialect hpointer dialect hd
        · have hchild : child ∈ schemaChildren schema node.pointer := by
            rw [← hchildren]
            exact hchild
          exact hall _ (List.mem_append_right _ (List.mem_map_of_mem hchild))
        · intro hreads keyword hkeyword text htext
          -- the text is the one that was read here, or was written over since
          have hread (h : referenceAt state.tables.documents node.documentIndex node.pointer keyword =
              some text) :
              ReferenceDone library given state'' (nodeResource library given node) text := by
            rw [referenceAt, hschemaIn, Option.bind_some] at h
            refine hall (.reference node.documentIndex node.pointer
              (nodeResource library given node) keyword text) (List.mem_append_left _ ?_)
            refine List.mem_map.mpr ⟨(keyword, text), List.mem_filterMap.mpr ⟨keyword, hkeyword, ?_⟩,
              rfl⟩
            rw [h]
            rfl
          by_cases href : keyword = "$ref"
          · subst href
            rcases hadvances.references hreads _ _ _ htext with htext | hlasting
            · exact hread htext
            · exact .inr (hlasting _ ⟨node.documentIndex, node.pointer, hkeyPlace⟩)
          · rw [← referenceAt_same hadvances.grows.documents href] at htext
            exact hread htext
      · exact .inl hmem

theorem enter_known {node : QualificationNode} {state : Qualification}
    (hprogress : Progress library given state)
    (h : Qualification.enter library node state = .ok none) :
    nodeKey library given node ∈ state.visited := by
  unfold Qualification.enter at h
  obtain ⟨document, hd, h⟩ := bind_eq_ok.mp h
  obtain ⟨schema, hschema, h⟩ := bind_eq_ok.mp h
  obtain ⟨_, _, h⟩ := bind_eq_ok.mp h
  obtain ⟨resource, hresource, h⟩ := bind_eq_ok.mp h
  have hd : state.tables.documents[node.documentIndex]? = some document := by
    unfold ResourceTables.document orPanicWith at hd
    cases hd' : state.tables.documents[node.documentIndex]? with
    | none => rw [hd'] at hd; cases hd
    | some d => rw [hd'] at hd; cases hd; rfl
  have hschema := Yields.returns_of_ok (orInvalidGraph_yields _) hschema
  obtain ⟨-, -, hidentity, -⟩ :=
    schemaIn_of_document hprogress.wellFormed.toSound hd hschema
  obtain rfl := Yields.returns_of_ok (resourceOf_yields hidentity) hresource
  dsimp only at h
  split at h
  · rename_i hkey
    exact hkey
  · cases h

/-! ## Following -/

theorem unseen_le (uris : UriRules) (given : List ResourceDocument) (seen : List SchemaKey) :
    unseen uris given seen ≤ (places uris given).length := List.countP_le_length

/-- What following a reference into well-formed tables promises. -/
structure Followed (library : Library) (given : List ResourceDocument) (resource text : String)
    (state state' : Qualification) (node : QualificationNode) : Prop where
  progress : Progress library given state'
  sameVisited : state'.visited = state.visited
  ready : NodeReady library given node
  behind : ∀ state'', Advances library given state' state'' →
    nodeKey library given node ∈ state''.visited →
    Advances library given state state'' ∧ ReferenceDone library given state'' resource text

theorem followTarget_yields {fuel : Nat} (hfuel : (places library.uris given).length < fuel)
    {state : Qualification} (hprogress : Progress library given state)
    {documentIndex : Nat} {pointer : Pointer} {resource keyword text : String}
    (hedge : EdgeReady library given (.reference documentIndex pointer resource keyword text) state)
    {target : GraphLocation} (htarget :
      (state.tables.graph library.uris).resolveReferenceRaw resource text = .ok target) :
    Yields (Qualification.followTarget library fuel documentIndex pointer resource keyword text
        target state.tables)
      (fun followed =>
        Followed library given resource text state ⟨followed.1, state.visited⟩ followed.2)
      PrepareError.Reported := by
  obtain ⟨hkeyPlace, hreference, hvisited, hgivenText⟩ := hedge
  have hinv := hprogress.wellFormed
  obtain ⟨hlocated, -⟩ := Yields.returns_of_ok (resolveReferenceRaw_yields hinv resource text) htarget
  unfold Qualification.followTarget
  have hroot : state.tables.aliases.lookup target.resource =
      some ⟨target.documentIndex, target.resource, target.resourceRoot⟩ := hlocated.root
  have hunseen : unseen library.uris given state.tables.indexedSchemas < fuel :=
    Nat.lt_of_le_of_lt (unseen_le _ _ _) hfuel
  refine (indexReferenceTarget_yields hinv hunseen hroot rfl target.documentPointer).bind
    fun t _ ht => ?_
  obtain ⟨hindexes, hsettled⟩ := ht
  have hinv₁ := hindexes.wellFormed
  have hgrows₁ := hindexes.grows.toGrows
  -- the target is where it was, below a root of the larger tables
  obtain ⟨settled, hraw, hindex, hpointer⟩ :=
    resolveReferenceRaw_grows hinv hinv₁ hgrows₁ htarget
  obtain ⟨hlocated₁, -⟩ := Yields.returns_of_ok (resolveReferenceRaw_yields hinv₁ resource text) hraw
  have hresolve : (t.graph library.uris).resolveReference resource text = .ok settled :=
    (resolveReference_eq_ok hinv₁).mpr ⟨hraw, by rw [hindex, hpointer]; exact hsettled⟩
  have hplace : (schemaIn given settled.documentIndex
      (settled.resourceRoot ++ settled.pointer)).isSome = true := by
    rw [hinv₁.documents.isSome, ← hlocated₁.below, hlocated₁.schema]
    rfl
  have hready : NodeReady library given
      ⟨target.documentIndex, settled.documentPointer, settled.resource, false⟩ := by
    refine ⟨?_, nofun⟩
    rw [hlocated₁.below, ← hindex]
    exact basesAt_append (hinv₁.based _ (lookup_mem hlocated₁.root)) settled.pointer
  rw [hresolve]
  have hfound : Yields ((.ok settled : Except GraphError GraphLocation).mapError
      GraphError.prepareError) (fun l => l = settled) PrepareError.Reported := rfl
  refine hfound.bind fun found _ heq => ?_
  obtain rfl : settled = found := heq.symm
  -- where a text leads that is written for the target
  have hwritten (t' : ResourceTables) (hinv' : WellFormed library given t') (hgrows : Grows t t')
      (hreads : ReadsBack library given) (base : String)
      (hbase : ∃ index place, (index, place, base) ∈ places library.uris given) :
      ∃ location, (t'.graph library.uris).resolveReference base
          (Qualification.referenceText settled.resource settled.pointer) = .ok location ∧
        location.documentIndex = settled.documentIndex ∧
        location.documentPointer = settled.documentPointer := by
    obtain ⟨location, hlocation, hlocationIndex, hlocationPointer⟩ :=
      referenceText_resolves hinv' hreads hbase
        ⟨settled.documentIndex, settled.resource, settled.resourceRoot⟩
        (hgrows.aliases _ _ hlocated₁.root) hplace
    have hlocationPointer := hlocationPointer.trans hlocated₁.below.symm
    refine ⟨location, (resolveReference_eq_ok hinv').mpr ⟨hlocation, ?_⟩, hlocationIndex,
      hlocationPointer⟩
    rw [hlocationIndex, hlocationPointer, hindex, hpointer]
    exact hsettled.grows hgrows
  -- what is behind the target, whatever tables the rewriting leaves
  have hbehind (t' : ResourceTables) (hinv' : WellFormed library given t') (hgrows : Grows t t')
      (htraversal : t'.qualificationTraversal = t.qualificationTraversal)
      (htexts : ∀ index place found, referenceAt t'.documents index place "$ref" = some found →
        referenceAt t.documents index place "$ref" = some found ∨
          keyword = "$ref" ∧ index = documentIndex ∧ place = pointer ∧
            found = Qualification.referenceText settled.resource settled.pointer) :
      Followed library given resource text state ⟨t', state.visited⟩
        ⟨target.documentIndex, settled.documentPointer, settled.resource, false⟩ := by
    have hgrowsAll := hgrows₁.trans hgrows
    have hsame : t.documents = state.tables.documents := hindexes.grows.sameDocuments
    rw [hsame] at htexts
    refine ⟨⟨hinv', hprogress.places, hprogress.nodup,
      (htraversal.trans hindexes.grows.sameTraversal).trans hprogress.traversal, ?_, ?_⟩, rfl,
      hready, ?_⟩
    · intro index place hunvisited
      rw [← hprogress.untouched index place hunvisited]
      cases hat : referenceAt t'.documents index place "$ref" with
      | some found =>
        rcases htexts index place found hat with hold | ⟨-, rfl, rfl, -⟩
        · exact hold.symm
        · exact absurd hvisited (hunvisited resource)
      | none =>
        cases hold : referenceAt state.tables.documents index place "$ref" with
        | none => rfl
        | some found =>
          have hsome := referenceAt_isSome hgrowsAll.documents (by rw [hold]; rfl)
          rw [hat] at hsome
          cases hsome
    · intro hreads hsingle index place under found hmem hat
      rcases htexts index place found hat with hold | ⟨href, rfl, rfl, rfl⟩
      · obtain ⟨original, horiginal, hmeant⟩ :=
          hprogress.meant hreads hsingle index place under found hmem hold
        exact ⟨original, horiginal, hmeant.imp_right fun h => h.grows hinv hinv' hgrowsAll⟩
      · obtain rfl := hsingle _ _ _ _ hvisited hmem
        obtain ⟨location, hlocation, hlocationIndex, hlocationPointer⟩ :=
          resolveReference_stable hinv₁ hinv' hgrows hresolve
        obtain ⟨location', hlocation', hlocationIndex', hlocationPointer'⟩ :=
          hwritten t' hinv' hgrows hreads resource ⟨index, place, hkeyPlace⟩
        exact ⟨text, hgivenText hsingle href, .inr ⟨location, location', hlocation, hlocation',
          by rw [hlocationIndex, hlocationIndex'], by rw [hlocationPointer, hlocationPointer']⟩⟩
    · intro state' hadvances hseen
      have hwellFormed := hadvances.wellFormed hinv'
      have hgrows₂ : Grows t state'.tables := hgrows.trans hadvances.grows
      have hseen : (settled.documentIndex, settled.documentPointer, settled.resource) ∈
          state'.visited := by
        rw [hindex]
        exact hseen
      have hleads (base reference : String) (h : ∃ location,
          (state'.tables.graph library.uris).resolveReference base reference = .ok location ∧
          location.documentIndex = settled.documentIndex ∧
          location.documentPointer = settled.documentPointer) :
          Leads library given state' base reference := by
        obtain ⟨location, hlocation, hlocationIndex, hlocationPointer⟩ := h
        refine ⟨hwellFormed, location, hlocation, settled.resource, ?_⟩
        rw [hlocationIndex, hlocationPointer]
        exact hseen
      constructor
      · refine ⟨hgrows₁.trans hgrows₂, hadvances.visited, fun _ => hwellFormed, ?_⟩
        intro hreads index place found hfound
        rcases hadvances.references hreads index place found hfound with hfound | hlasting
        · rcases htexts index place found hfound with hold | ⟨-, -, -, rfl⟩
          · exact .inl hold
          · exact .inr fun base hbase => hleads base _
              (hwritten state'.tables hwellFormed hgrows₂ hreads base hbase)
        · exact .inr hlasting
      · exact .inr (hleads resource text (resolveReference_stable hinv₁ hwellFormed hgrows₂ hresolve))
  by_cases hrewrite : keyword = "$ref" ∧ settled.resource ≠ target.resource
  · rw [if_pos hrewrite]
    have hpresent := hreference t.documents hinv₁.documents
    rw [hrewrite.1] at hpresent
    refine (rewrite_yields hinv₁ hpresent _).bind fun t' _ ht' => ?_
    obtain ⟨hinv', hrewrites⟩ := ht'
    refine hbehind t' hinv' hrewrites.grows hrewrites.sameTraversal fun index place found hfound => ?_
    exact (hrewrites.texts index place found hfound).imp_right fun h => ⟨hrewrite.1, h⟩
  · rw [if_neg hrewrite]
    exact hbehind t hinv₁ (.refl t) rfl (fun _ _ _ h => .inl h)

theorem follow_yields {fuel : Nat} (hfuel : (places library.uris given).length < fuel)
    {edge : QualificationEdge} {state : Qualification} (hprogress : Progress library given state)
    (hready : EdgeReady library given edge state) :
    Yields (Qualification.follow library fuel edge state) (fun followed =>
      Progress library given followed.1 ∧
      unseen library.uris given followed.1.visited ≤ unseen library.uris given state.visited ∧
      (∀ key, key ∈ followed.1.visited → key ∈ state.visited) ∧
      (followed.2 = none → Advances library given state followed.1 ∧
        EdgeDone library given edge followed.1) ∧
      ∀ node, followed.2 = some node → NodeReady library given node ∧
        ∀ state', Advances library given followed.1 state' →
          nodeKey library given node ∈ state'.visited →
          Advances library given state state' ∧ EdgeDone library given edge state')
      PrepareError.Reported := by
  have hinv := hprogress.wellFormed
  cases edge with
  | child child =>
    refine ⟨hprogress, Nat.le_refl _, fun _ h => h, nofun, fun node hnode => ?_⟩
    obtain rfl : child = node := Option.some.inj hnode
    exact ⟨hready, fun _ hadvances hseen => ⟨hadvances, hseen⟩⟩
  | reference documentIndex pointer resource keyword text =>
    unfold Qualification.follow
    have hraw := resolveReferenceRaw_yields hinv resource text
    cases hresolve : (state.tables.graph library.uris).resolveReferenceRaw resource text with
    | ok target =>
      simp only [hresolve]
      refine (followTarget_yields hfuel hprogress hready hresolve).bind fun followed _ hfollowed => ?_
      obtain ⟨t, node⟩ := followed
      refine ⟨hfollowed.progress, Nat.le_refl _, fun _ h => h, nofun, fun node' hnode => ?_⟩
      obtain rfl : node = node' := Option.some.inj hnode
      exact ⟨hfollowed.ready, hfollowed.behind⟩
    | error e =>
      have he : e = .invalidGraph := hraw.fails_of_error hresolve
      subst he
      simp only [hresolve]
      by_cases hbuiltIn : builtInReferenceResolves library resource text = true
      · rw [if_pos hbuiltIn]
        exact ⟨hprogress, Nat.le_refl _, fun _ h => h, fun _ => ⟨.refl state, .inl hbuiltIn⟩, nofun⟩
      · rw [if_neg hbuiltIn]
        have hsome := hready.2.1 state.tables.documents hinv.documents
        obtain ⟨found, hfound⟩ := Option.isSome_iff_exists.mp hsome
        obtain ⟨schema, hschema, -⟩ := Option.bind_eq_some_iff.mp hfound
        obtain ⟨document, hd, -⟩ := Option.bind_eq_some_iff.mp hschema
        exact (documentAt_yields hd).bind fun _ _ _ => trivial

/-! ## The traversal -/

def qualificationRules (library : Library) (given : List ResourceDocument) {fuel : Nat}
    (hfuel : (places library.uris given).length < fuel) :
    Traversal.Rules (qualification library fuel) SchemaKey where
  Inv := Progress library given
  Step := Advances library given
  Ready node _ := NodeReady library given node
  Out edge state := EdgeReady library given edge state
  Seen node state := nodeKey library given node ∈ state.visited
  Through := EdgeDone library given
  Key key state := key ∈ state.visited
  Covered := Closed library given
  size state := unseen library.uris given state.visited
  Fails := PrepareError.Reported
  refl := .refl
  trans _ _ _ := .trans
  ready_step _ _ _ h _ := h
  out_step _ _ _ := .advances
  seen_step _ _ _ h hadvances := hadvances.visited _ h
  through_step _ _ _ := .advances
  covered_step _ _ _ := .advances
  size_step _ _ h := unseen_mono h.visited
  entering _ _ := enter_yields
  known _ _ hprogress _ := enter_known hprogress
  following _ _ := follow_yields hfuel

/-- What is left once all references have been followed. -/
structure Qualified (library : Library) (given : List ResourceDocument) (state : Qualification) :
    Prop where
  progress : Progress library given state
  roots : ∀ index document, given[index]? = some document →
    nodeKey library given ⟨index, [], document.retrievalUri, true⟩ ∈ state.visited
  closed : ∀ key ∈ state.visited, Closed library given key state

theorem nodeReady_document {index : Nat} {document : ResourceDocument}
    (hd : given[index]? = some document) :
    NodeReady library given ⟨index, [], document.retrievalUri, true⟩ := by
  have hbases : basesAt library.uris given index [] =
      baseUris library.uris given index document.retrievalUri [] := by
    rw [basesAt, hd]
    rfl
  refine ⟨?_, fun _ identity canonical hid hresolve => ?_⟩
  · rw [hbases]
    exact List.mem_cons_self
  · rw [hbases]
    refine List.mem_cons_of_mem _ (List.mem_append_right _ ?_)
    rw [hid, Option.bind_some, hresolve]
    exact List.mem_singleton_self canonical

theorem Progress.start {tables : ResourceTables} (hinv : WellFormed library given tables)
    (hsame : tables.documents = given) (htraversal : tables.qualificationTraversal = 0) :
    Progress library given ⟨tables, []⟩ where
  wellFormed := hinv
  places _ h := absurd h List.not_mem_nil
  nodup := List.nodup_nil
  traversal := htraversal
  untouched _ _ _ := by rw [hsame]
  meant _ _ _ _ _ _ h := absurd h List.not_mem_nil

theorem qualifyReferences_yields {fuel : Nat} (hfuel : (places library.uris given).length < fuel)
    {tables : ResourceTables} (hinv : WellFormed library given tables)
    (hsame : tables.documents = given) (htraversal : tables.qualificationTraversal = 0) :
    Yields (qualifyReferences library fuel tables)
      (fun state => Qualified library given state ∧ Grows tables state.tables)
      PrepareError.Reported := by
  let rules := qualificationRules library given hfuel
  have hbody (index : Nat) (hindex : index ∈ List.range tables.documents.length)
      (state : Qualification) (_ : rules.Closes ⟨tables, []⟩ state)
      (hprogress : Progress library given state) :
      Yields (do
          let document ← state.tables.document index
          qualifySchemaReferences library fuel ⟨index, [], document.retrievalUri, true⟩ state)
        (fun state' => rules.Closes state state' ∧ Progress library given state' ∧
          ∀ document, given[index]? = some document →
            nodeKey library given ⟨index, [], document.retrievalUri, true⟩ ∈ state'.visited)
        PrepareError.Reported := by
    have hlength : index < given.length := by
      rw [hinv.documents.length]
      exact List.mem_range.mp hindex
    have hgiven : given[index]? = some given[index] := List.getElem?_eq_getElem hlength
    obtain ⟨current, hcurrent, -, huri, -⟩ := hprogress.wellFormed.documents.document hgiven
    refine (documentAt_yields hcurrent).bind fun document _ heq => ?_
    obtain rfl : current = document := heq.symm
    have hsize : rules.size state < fuel := Nat.lt_of_le_of_lt (unseen_le _ _ _) hfuel
    have hready : NodeReady library given ⟨index, [], current.retrievalUri, true⟩ := by
      rw [huri]
      exact nodeReady_document hgiven
    refine (rules.visit_yields hprogress hready hsize).mono fun state' hvisit => ?_
    obtain ⟨hcloses, hprogress', hseen⟩ := hvisit
    refine ⟨hcloses, hprogress', fun original horiginal => ?_⟩
    obtain rfl : given[index] = original := Option.some.inj (hgiven.symm.trans horiginal)
    rw [← huri]
    exact hseen
  have hstart : Progress library given ⟨tables, []⟩ :=
    .start hinv hsame htraversal
  have hloop := Yields.foldlM rules.Closes (Progress library given)
    (fun index (state : Qualification) =>
      ∀ document : ResourceDocument, given[index]? = some document →
      nodeKey library given ⟨index, [], document.retrievalUri, true⟩ ∈ state.visited)
    (Traversal.Rules.Closes.refl rules) (fun _ _ _ => Traversal.Rules.Closes.trans)
    (fun _ _ _ hseen hcloses document hd =>
      hcloses.1.visited _ (hseen document hd))
    (List.range tables.documents.length) hbody hstart
  refine hloop.mono fun state hstate => ?_
  obtain ⟨hcloses, hprogress, hall⟩ := hstate
  refine ⟨⟨hprogress, fun index document hd => ?_, fun key hkey => ?_⟩, hcloses.1.grows⟩
  · refine hall index (List.mem_range.mpr ?_) document hd
    rw [← hinv.documents.length]
    exact (List.getElem?_eq_some_iff.mp hd).1
  · exact (hcloses.2 key hkey).resolve_left List.not_mem_nil

end Schemaform.Resources
