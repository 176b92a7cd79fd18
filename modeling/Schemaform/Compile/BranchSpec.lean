import Schemaform.Compile.Branch
import Schemaform.Compile.ScalarSpec

/-!
# Compile.BranchSpec

What a branch that is found to change nothing changes.

* `inferKind_append`, `inferKind_congr`: schemas that leave the inferred kind as it is.
* `mem_independentPropertyKinds`: each kind collected for a property is declared by its schemas.
* `MakesApplicable`, `Applies`: what a branch, or a property, makes applicable.
* `branch_keeps_projection`.
-/

namespace Schemaform.Engine

open Resources (ResourceGraph GraphLocation)

/-! ## Inferred kinds -/

theorem mem_retained {declarations : List Value} {kinds out : Finset ProjectedKind}
    (h : retainKinds kinds declarations = some out) (kind : ProjectedKind) :
    kind ∈ out ↔ kind ∈ kinds ∧ ∀ declared ∈ declarations,
      ∃ admitted, declaredProjectedKinds declared = some admitted ∧ kind ∈ admitted := by
  induction declarations generalizing kinds with
  | nil =>
    obtain rfl := Option.some.inj h
    simp
  | cons declared declarations ih =>
    unfold retainKinds at h
    obtain ⟨admitted, hadmitted, h⟩ := Option.bind_eq_some_iff.mp h
    rw [ih h, Finset.mem_inter, List.forall_mem_cons, and_assoc, hadmitted]
    simp

theorem mem_admitted {applicable : List LocatedSchema} {admitted : Finset ProjectedKind}
    (h : admittedKinds applicable = some admitted) (kind : ProjectedKind) :
    kind ∈ admitted ↔ ∀ declared ∈ typeDeclarations applicable,
      ∃ kinds, declaredProjectedKinds declared = some kinds ∧ kind ∈ kinds := by
  unfold admittedKinds at h
  cases ht : typeDeclarations applicable with
  | nil =>
    rw [ht] at h
    cases h
  | cons declared declarations =>
    rw [ht] at h
    obtain ⟨kinds, hkinds, h⟩ := Option.bind_eq_some_iff.mp h
    rw [mem_retained h, List.forall_mem_cons, hkinds]
    simp

theorem retainKinds_isSome {declarations : List Value} {kinds : Finset ProjectedKind} :
    (retainKinds kinds declarations).isSome ↔
      ∀ declared ∈ declarations, (declaredProjectedKinds declared).isSome := by
  induction declarations generalizing kinds with
  | nil => simp [retainKinds]
  | cons declared declarations ih =>
    rw [retainKinds, List.forall_mem_cons]
    cases hdeclared : declaredProjectedKinds declared with
    | none => simp
    | some admitted =>
      show (retainKinds (kinds ∩ admitted) declarations).isSome ↔ _
      rw [ih]
      simp

theorem admittedKinds_isSome {applicable : List LocatedSchema} :
    (admittedKinds applicable).isSome ↔ (∃ declared, declared ∈ typeDeclarations applicable) ∧
      ∀ declared ∈ typeDeclarations applicable, (declaredProjectedKinds declared).isSome := by
  unfold admittedKinds
  cases typeDeclarations applicable with
  | nil => simp
  | cons declared declarations =>
    dsimp only
    rw [List.forall_mem_cons]
    cases hdeclared : declaredProjectedKinds declared with
    | none => simp
    | some kinds =>
      show (retainKinds kinds declarations).isSome ↔ _
      rw [retainKinds_isSome]
      simp

/-- Only the set of declared types counts. -/
theorem inferKind_congr {applicable applicable' : List LocatedSchema}
    (h : ∀ declared, declared ∈ typeDeclarations applicable ↔
      declared ∈ typeDeclarations applicable') : inferKind applicable = inferKind applicable' := by
  have hadmitted : admittedKinds applicable = admittedKinds applicable' := by
    have hsome : (admittedKinds applicable).isSome ↔ (admittedKinds applicable').isSome := by
      rw [admittedKinds_isSome, admittedKinds_isSome]
      simp only [h]
    cases hleft : admittedKinds applicable with
    | none =>
      rw [hleft] at hsome
      cases hright : admittedKinds applicable' with
      | none => rfl
      | some _ =>
        rw [hright] at hsome
        exact absurd (hsome.mpr rfl) Bool.false_ne_true
    | some admitted =>
      rw [hleft] at hsome
      obtain ⟨admitted', hright⟩ := Option.isSome_iff_exists.mp (hsome.mp rfl)
      rw [hright, Option.some.injEq]
      ext kind
      rw [mem_admitted hleft, mem_admitted hright]
      simp only [h]
  unfold inferKind
  rw [hadmitted]

theorem inferKind_of_admitted {applicable : List LocatedSchema} {kind : ProjectedKind}
    (h : admittedKinds applicable = some (insertProjectedKind ∅ kind)) :
    inferKind applicable = some kind := by
  unfold inferKind
  rw [h]
  cases kind <;> decide

theorem typeDeclarations_append (applicable added : List LocatedSchema) :
    typeDeclarations (applicable ++ added) =
      typeDeclarations applicable ++ typeDeclarations added := List.filterMap_append

/-- Schemas that name the inferred kind, or no type, do not change it. -/
theorem inferKind_append {applicable added : List LocatedSchema} {kind : ProjectedKind}
    (h : inferKind applicable = some kind)
    (hadded : ∀ declared ∈ typeDeclarations added,
      (declared.asString.bind projectedKind) = some kind) :
    inferKind (applicable ++ added) = some kind := by
  obtain ⟨admitted, hadmitted, hcases⟩ := inferKind_spec h
  cases hnone : typeDeclarations added with
  | nil =>
    have hsame : inferKind (applicable ++ added) = inferKind applicable :=
      inferKind_congr fun declared => by rw [typeDeclarations_append, hnone, List.append_nil]
    rw [hsame, h]
  | cons first rest =>
    have hnamed (declared : Value) (hd : declared ∈ typeDeclarations added) :
        declaredProjectedKinds declared = some (insertProjectedKind ∅ kind) := by
      have hkind := hadded declared hd
      cases declared with
      | string name =>
        have hkind : projectedKind name = some kind := hkind
        rw [declaredProjectedKinds, hkind]
        rfl
      | _ => cases hkind
    have hsubset : insertProjectedKind ∅ kind ⊆ admitted := by
      rcases hcases with ⟨rfl, rfl⟩ | ⟨rfl, heq⟩ | ⟨_, hnumber, heq⟩
      · decide
      · intro k hk
        have hmem : k ∈ admitted.erase .null := by
          rw [heq]
          revert k
          decide
        exact Finset.mem_of_mem_erase hmem
      · intro k hk
        have hmem : k ∈ admitted.erase .null := by
          rw [heq]
          simpa [insertProjectedKind, hnumber] using hk
        exact Finset.mem_of_mem_erase hmem
    have hsome : (admittedKinds (applicable ++ added)).isSome := by
      have hbefore : (admittedKinds applicable).isSome := by
        rw [hadmitted]
        rfl
      obtain ⟨⟨declared, hd⟩, hall⟩ := admittedKinds_isSome.mp hbefore
      rw [admittedKinds_isSome, typeDeclarations_append]
      refine ⟨⟨declared, List.mem_append_left _ hd⟩, fun declared hd => ?_⟩
      rcases List.mem_append.mp hd with hd | hd
      · exact hall declared hd
      · rw [hnamed declared hd]
        rfl
    obtain ⟨narrowed, hnarrowed⟩ := Option.isSome_iff_exists.mp hsome
    have heq : narrowed = insertProjectedKind ∅ kind := by
      ext k
      rw [mem_admitted hnarrowed, typeDeclarations_append]
      constructor
      · intro hall
        obtain ⟨kinds, hkinds, hk⟩ :=
          hall first (List.mem_append_right _ (hnone ▸ List.mem_cons_self))
        rw [hnamed first (hnone ▸ List.mem_cons_self)] at hkinds
        exact Option.some.inj hkinds ▸ hk
      · intro hk declared hd
        rcases List.mem_append.mp hd with hd | hd
        · exact (mem_admitted hadmitted k).mp (hsubset hk) declared hd
        · exact ⟨_, hnamed declared hd, hk⟩
    exact inferKind_of_admitted (heq ▸ hnarrowed)

/-! ## What applies -/

section Applies

variable (graph : ResourceGraph)

/-- Through `$ref` and `allOf`. -/
def Joins (a b : GraphLocation) : Prop :=
  referenceTarget graph a = some (some b) ∨ some b ∈ allOfBranches graph a

/-- Through `$ref`, `allOf`, and `then` and `else` beside an `if`. -/
def Conditions (a b : GraphLocation) : Prop :=
  Joins graph a b ∨ some b ∈ conditionalBranches graph a

def Applies : GraphLocation → GraphLocation → Prop := Relation.ReflTransGen (Joins graph)

def MakesApplicable : GraphLocation → GraphLocation → Prop :=
  Relation.ReflTransGen (Conditions graph)

/-- A reference within what the branch makes applicable leads here. -/
def ReferredFrom (branch a : GraphLocation) : Prop :=
  ∃ b, MakesApplicable graph branch b ∧ referenceTarget graph b = some (some a)

def declaredNames (applicable : List GraphLocation) : List String :=
  applicable.flatMap fun located => (propertySchemas graph located).map Prod.fst

/-- What the schemas of a property make applicable to it. -/
def PropertyApplies (applicable : List GraphLocation) (name : String) (a : GraphLocation) : Prop :=
  ∃ located ∈ applicable, ∃ root, (name, some root) ∈ propertySchemas graph located ∧
    Applies graph root a

end Applies

variable {graph : ResourceGraph}

theorem Applies.makesApplicable {a b : GraphLocation} (h : Applies graph a b) :
    MakesApplicable graph a b :=
  Relation.ReflTransGen.mono (fun _ _ hjoins => Or.inl hjoins) a b h

theorem referenceTarget_eq {a b : GraphLocation} (h : referenceTarget graph a = some (some b)) :
    ∃ reference, graph.resolveReference a.resource reference = .ok b := by
  unfold referenceTarget at h
  cases hreference : (a.schema.get "$ref").bind Value.asString with
  | none =>
    rw [hreference] at h
    cases h
  | some reference =>
    rw [hreference] at h
    dsimp only at h
    cases hresolve : graph.resolveReference a.resource reference with
    | error _ =>
      rw [hresolve] at h
      cases h
    | ok target =>
      rw [hresolve] at h
      exact ⟨reference, congrArg Except.ok (Option.some.inj (Option.some.inj h)) ▸ hresolve⟩

theorem referenceTarget_one (hbase : graph.OneBase) {a b c d : GraphLocation}
    (hb : referenceTarget graph a = some (some b)) (hd : referenceTarget graph c = some (some d))
    (h : schemaIdentity b = schemaIdentity d) : b = d := by
  obtain ⟨reference, hb⟩ := referenceTarget_eq hb
  obtain ⟨reference', hd⟩ := referenceTarget_eq hd
  obtain ⟨hindex, hpointer⟩ := Prod.mk.inj h
  exact hbase _ _ _ _ _ _ hb hd hindex hpointer

/-! ## Kinds of properties -/

/-- The kinds of the branches are added one after the other. -/
theorem mem_foldlM_kinds {visit : KindVisit} {branches : List (Option GraphLocation)}
    {kinds kinds' : Finset ProjectedKind}
    {visited visited' : List SchemaIdentity}
    (h : branches.foldlM (fun (kinds, visited) branch => do
      let (more, visited) ← visit (← branch) visited
      some (kinds ∪ more, visited)) (kinds, visited) = some (kinds', visited'))
    {kind : ProjectedKind} (hk : kind ∈ kinds') : kind ∈ kinds ∨
      ∃ branch, some branch ∈ branches ∧ ∃ before more after,
        visit branch before = some (more, after) ∧ kind ∈ more := by
  induction branches generalizing kinds visited with
  | nil =>
    obtain ⟨rfl, _⟩ := Prod.mk.inj (Option.some.inj h)
    exact .inl hk
  | cons branch branches ih =>
    rw [List.foldlM_cons] at h
    obtain ⟨⟨kinds₁, visited₁⟩, hfirst, h⟩ := Option.bind_eq_some_iff.mp h
    obtain ⟨located, rfl, hlocated⟩ := Option.bind_eq_some_iff.mp hfirst
    obtain ⟨⟨more, after⟩, hvisit, hmore⟩ := Option.bind_eq_some_iff.mp hlocated
    obtain ⟨rfl, rfl⟩ := Prod.mk.inj (Option.some.inj hmore)
    rcases ih h with hin | ⟨branch, hbranch, hrest⟩
    · rcases Finset.mem_union.mp hin with hin | hin
      · exact .inl hin
      · exact .inr ⟨located, List.mem_cons_self, visited, more, _, hvisit, hin⟩
    · exact .inr ⟨branch, List.mem_cons_of_mem _ hbranch, hrest⟩

theorem mem_referredKinds {visit : KindVisit} {target : Option GraphLocation}
    {visited visited' : List SchemaIdentity} {kinds : Finset ProjectedKind}
    (h : referredKinds visit target visited = some (kinds, visited')) {kind : ProjectedKind}
    (hk : kind ∈ kinds) : ∃ located, target = some located ∧
      ∃ before, visit located before = some (kinds, visited') := by
  cases target with
  | none =>
    obtain ⟨rfl, _⟩ := Prod.mk.inj (Option.some.inj h)
    exact absurd hk (Finset.notMem_empty _)
  | some located =>
    rw [referredKinds] at h
    by_cases hvisited : schemaIdentity located ∈ visited
    · rw [if_pos hvisited] at h
      obtain ⟨rfl, _⟩ := Prod.mk.inj (Option.some.inj h)
      exact absurd hk (Finset.notMem_empty _)
    · rw [if_neg hvisited] at h
      exact ⟨located, rfl, _, h⟩

theorem mem_projectedKindsFromSchema {fuel : Nat} {located : GraphLocation}
    {visited visited' : List SchemaIdentity} {kinds : Finset ProjectedKind}
    (h : projectedKindsFromSchema graph fuel located visited = some (kinds, visited'))
    {kind : ProjectedKind} (hk : kind ∈ kinds) :
    ∃ a, Applies graph located a ∧ declaredKind a = some kind := by
  induction fuel generalizing located visited visited' kinds with
  | zero => cases h
  | succ fuel ih =>
    rw [projectedKindsFromSchema] at h
    obtain ⟨target, htarget, h⟩ := Option.bind_eq_some_iff.mp h
    obtain ⟨⟨referred, visited₁⟩, hreferred, h⟩ := Option.bind_eq_some_iff.mp h
    rcases mem_foldlM_kinds h hk with hin | ⟨branch, hbranch, before, more, after, hvisit, hin⟩
    · rcases Finset.mem_union.mp hin with hin | hin
      · cases hdeclared : declaredKind located with
        | none =>
          rw [hdeclared] at hin
          exact absurd hin (Finset.notMem_empty _)
        | some k =>
          rw [hdeclared] at hin
          obtain rfl := Finset.mem_singleton.mp hin
          exact ⟨located, .refl, hdeclared⟩
      · obtain ⟨target, rfl, visit, hvisit⟩ := mem_referredKinds hreferred hin
        obtain ⟨a, happlies, ha⟩ := ih hvisit hin
        exact ⟨a, .head (.inl htarget) happlies, ha⟩
    · obtain ⟨a, happlies, ha⟩ := ih hvisit hin
      exact ⟨a, .head (.inr hbranch) happlies, ha⟩

theorem get_extend {properties : PropertyKinds} {name other : String}
    {kinds found : Finset ProjectedKind}
    (h : SortedMap.get other (properties.extend name kinds) = some found)
    {kind : ProjectedKind} (hk : kind ∈ found) :
    (other = name ∧ kind ∈ kinds) ∨
      ∃ before, SortedMap.get other properties = some before ∧ kind ∈ before := by
  unfold PropertyKinds.extend at h
  by_cases heq : name = other
  · subst heq
    rw [SortedMap.get_insert_self] at h
    obtain rfl := Option.some.inj h
    rcases Finset.mem_union.mp hk with hk | hk
    · cases hbefore : SortedMap.get name properties with
      | none =>
        rw [hbefore] at hk
        exact absurd hk (Finset.notMem_empty _)
      | some before =>
        rw [hbefore] at hk
        exact .inr ⟨before, rfl, hk⟩
    · exact .inl ⟨rfl, hk⟩
  · rw [SortedMap.get_insert_ne heq] at h
    exact .inr ⟨found, h, hk⟩

theorem mem_independentPropertyKinds_aux {fuel : Nat}
    {entries : List (String × Option GraphLocation)} {before after : PropertyKinds}
    (h : entries.foldlM (fun properties property => do
      let (kinds, _) ← projectedKindsFromSchema graph fuel (← property.2) []
      some (PropertyKinds.extend properties property.1 kinds)) before = some after)
    {name : String} {kinds : Finset ProjectedKind}
    (hget : SortedMap.get name after = some kinds) :
    ((SortedMap.get name before).isSome ∨ name ∈ entries.map Prod.fst) ∧
      ∀ kind ∈ kinds, (∃ found, SortedMap.get name before = some found ∧ kind ∈ found) ∨
        ∃ root, (name, some root) ∈ entries ∧
          ∃ a, Applies graph root a ∧ declaredKind a = some kind := by
  induction entries generalizing before with
  | nil =>
    obtain rfl := Option.some.inj h
    exact ⟨.inl (hget ▸ rfl), fun kind hk => .inl ⟨kinds, hget, hk⟩⟩
  | cons entry entries ih =>
    obtain ⟨other, schema⟩ := entry
    rw [List.foldlM_cons] at h
    obtain ⟨middle, hfirst, h⟩ := Option.bind_eq_some_iff.mp h
    obtain ⟨root, rfl, hroot⟩ := Option.bind_eq_some_iff.mp hfirst
    obtain ⟨⟨added, visited⟩, hkinds, hextend⟩ := Option.bind_eq_some_iff.mp hroot
    obtain rfl := Option.some.inj hextend
    obtain ⟨hname, hall⟩ := ih h
    constructor
    · rcases hname with hname | hname
      · obtain ⟨found, hfound⟩ := Option.isSome_iff_exists.mp hname
        by_cases heq : other = name
        · exact .inr (heq ▸ List.mem_cons_self)
        · unfold PropertyKinds.extend at hfound
          rw [SortedMap.get_insert_ne heq] at hfound
          exact .inl (hfound ▸ rfl)
      · exact .inr (List.mem_cons_of_mem _ hname)
    · intro kind hk
      rcases hall kind hk with ⟨found, hfound, hin⟩ | ⟨root', hroot', happlies⟩
      · rcases get_extend hfound hin with ⟨rfl, hin⟩ | hbefore
        · exact .inr ⟨root, List.mem_cons_self, mem_projectedKindsFromSchema hkinds hin⟩
        · exact .inl hbefore
      · exact .inr ⟨root', List.mem_cons_of_mem _ hroot', happlies⟩

/-- What is collected for a property is declared by what applies to it. -/
theorem mem_independentPropertyKinds {fuel : Nat} {applicable : List GraphLocation}
    {properties : PropertyKinds}
    (h : independentPropertyKinds graph fuel applicable = some properties)
    {name : String} {kinds : Finset ProjectedKind}
    (hget : SortedMap.get name properties = some kinds) :
    name ∈ declaredNames graph applicable ∧ ∀ kind ∈ kinds,
      ∃ a, PropertyApplies graph applicable name a ∧ declaredKind a = some kind := by
  obtain ⟨hname, hall⟩ := mem_independentPropertyKinds_aux h hget
  constructor
  · rw [declaredNames, ← List.map_flatMap]
    exact hname.resolve_left fun hnone => by cases hnone
  · intro kind hk
    obtain ⟨root, hroot, a, happlies, ha⟩ := (hall kind hk).resolve_left
      fun ⟨_, hnone, _⟩ => by cases hnone
    obtain ⟨located, hlocated, hmem⟩ := List.mem_flatMap.mp hroot
    exact ⟨a, ⟨located, hlocated, root, hmem, happlies⟩, ha⟩

/-! ## What a quiet schema declares -/

theorem anyM_false {α : Type} {p : α → Option Bool} {l : List α} (h : l.anyM p = some false) :
    ∀ a ∈ l, p a = some false := by
  induction l with
  | nil => exact fun _ ha => absurd ha List.not_mem_nil
  | cons a l ih =>
    rw [List.anyM] at h
    obtain ⟨found, hfound, h⟩ := Option.bind_eq_some_iff.mp h
    cases found with
    | true => cases h
    | false => exact List.forall_mem_cons.mpr ⟨hfound, ih h⟩

section Quiet

variable {fuel : Nat} {kind : ProjectedKind} {properties : PropertyKinds} {required : List String}
  {visited : List SchemaIdentity} {located : GraphLocation}

/-- The parts of the question asked of a branch. -/
theorem branch_quiet
    (h : (branchWalk graph fuel (some kind) properties required).own located visited =
      some false) :
    addsProperties graph fuel (some kind) properties visited located = some false ∧
      changesPresence (some kind) required located = false ∧
      (∀ keyword ∈ choiceKeywords, hasKeyword located keyword = false) ∧
      changesKind (some kind) located = false := by
  obtain ⟨adds, hadds, h⟩ := Option.bind_eq_some_iff.mp h
  have h := Option.some.inj h
  simp only [Bool.or_eq_false_iff, changesShape] at h
  obtain ⟨⟨⟨rfl, hpresence⟩, _, hchoice⟩, hkind⟩ := h
  refine ⟨hadds, hpresence, fun keyword hk => ?_, hkind⟩
  exact Bool.eq_false_iff.mpr fun hhas =>
    Bool.eq_false_iff.mp hchoice (List.any_eq_true.mpr ⟨keyword, hk, hhas⟩)

theorem branch_type (h : changesKind (some kind) located = false) {declared : Value}
    (hdeclared : located.schema.get "type" = some declared) :
    declared.asString.bind projectedKind = some kind := by
  unfold changesKind hasKeyword declaredKind at h
  rw [hdeclared] at h
  simpa using h

theorem branch_required (h : changesPresence (some .object) required located = false)
    {name : String} (hname : name ∈ requiredNames located) : name ∈ required := by
  by_contra hnot
  have hany : (requiredNames located).any (fun property => decide (property ∉ required)) = true :=
    List.any_eq_true.mpr ⟨name, hname, decide_eq_true hnot⟩
  rw [changesPresence, hany] at h
  cases h

theorem addsProperty_false {name : String} {schema : Option GraphLocation}
    (h : addsProperty graph fuel properties visited (name, schema) = some false) :
    ∃ root kinds visited', schema = some root ∧ SortedMap.get name properties = some kinds ∧
      propertySchemaChangesProjection graph fuel root kinds visited = some (false, visited') := by
  obtain ⟨root, rfl, h⟩ := Option.bind_eq_some_iff.mp h
  cases hget : SortedMap.get name properties with
  | none =>
    dsimp only at h
    rw [hget] at h
    cases h
  | some kinds =>
    dsimp only at h
    rw [hget] at h
    obtain ⟨⟨changed, visited'⟩, hsearch, rfl⟩ := Option.map_eq_some_iff.mp h
    exact ⟨root, kinds, visited', rfl, rfl, hsearch⟩

theorem property_quiet {kinds : Finset ProjectedKind}
    (h : (propertyWalk graph kinds).own located visited = some false) :
    (∀ keyword ∈ choiceKeywords, hasKeyword located keyword = false) ∧
      changesPropertyKind kinds located = false := by
  have h := Option.some.inj h
  obtain ⟨hkind, hkeywords⟩ := Bool.or_eq_false_iff.mp h
  refine ⟨fun keyword hk => ?_, hkind⟩
  have hmem : keyword ∈ propertyKeywords := by
    revert hk keyword
    decide
  exact Bool.eq_false_iff.mpr fun hhas =>
    Bool.eq_false_iff.mp hkeywords (List.any_eq_true.mpr ⟨keyword, hmem, hhas⟩)

theorem property_type {kinds : Finset ProjectedKind}
    (h : changesPropertyKind kinds located = false) {declared : Value}
    (hdeclared : located.schema.get "type" = some declared) :
    ∃ kind, declaredKind located = some kind ∧ kinds = {kind} := by
  unfold changesPropertyKind hasKeyword at h
  rw [hdeclared] at h
  cases hkind : declaredKind located with
  | none =>
    rw [hkind] at h
    cases h
  | some kind =>
    rw [hkind] at h
    exact ⟨kind, rfl, by simpa using h⟩

end Quiet

def ProjectedKind.name : ProjectedKind → String
  | .string => "string"
  | .number => "number"
  | .integer => "integer"
  | .boolean => "boolean"
  | .null => "null"
  | .object => "object"
  | .array => "array"

theorem projectedKind_inj {a b : String} {kind : ProjectedKind} (ha : projectedKind a = some kind)
    (hb : projectedKind b = some kind) : a = b := by
  have hname (c : String) (hc : projectedKind c = some kind) : c = kind.name := by
    unfold projectedKind at hc
    split at hc <;> cases hc <;> rfl
  rw [hname a ha, hname b hb]

theorem declaredKind_eq {located : GraphLocation} {kind : ProjectedKind}
    (h : declaredKind located = some kind) :
    ∃ name, located.schema.get "type" = some (.string name) ∧ projectedKind name = some kind := by
  obtain ⟨name, hname, hkind⟩ := Option.bind_eq_some_iff.mp h
  obtain ⟨declared, hdeclared, hstring⟩ := Option.bind_eq_some_iff.mp hname
  cases declared with
  | string text => exact ⟨text, hdeclared, Option.some.inj hstring ▸ hkind⟩
  | _ => cases hstring

theorem declares_same {a b : GraphLocation} {kind : ProjectedKind}
    (ha : declaredKind a = some kind) (hb : declaredKind b = some kind) :
    a.schema.get "type" = b.schema.get "type" := by
  obtain ⟨name, ha, hname⟩ := declaredKind_eq ha
  obtain ⟨name', hb, hname'⟩ := declaredKind_eq hb
  rw [ha, hb, projectedKind_inj hname hname']

/-! ## Branches -/

theorem branchWalk_edge {fuel : Nat} {kind : Option ProjectedKind} {properties : PropertyKinds}
    {required : List String} {a b : GraphLocation} :
    Explore.Edge (branchWalk graph fuel kind properties required) a b ↔ Conditions graph a b := by
  show _ ∨ some b ∈ allOfBranches graph a ++ conditionalBranches graph a ↔ _
  rw [List.mem_append, ← or_assoc]
  rfl

theorem reaches_branch {fuel : Nat} {kind : Option ProjectedKind} {properties : PropertyKinds}
    {required : List String} {a b : GraphLocation} :
    Explore.Reaches (branchWalk graph fuel kind properties required) a b ↔
      MakesApplicable graph a b := by
  have hedge : Explore.Edge (branchWalk graph fuel kind properties required) = Conditions graph :=
    funext fun a => funext fun b => propext branchWalk_edge
  rw [Explore.Reaches, hedge]
  rfl

section Keeps

variable {fuel : Nat} {kind : ProjectedKind} {properties : PropertyKinds} {required : List String}
  {branch : GraphLocation} {visited : List SchemaIdentity}

/-- Everything the branch makes applicable is asked, with only references of the branch at hand. -/
theorem branch_asked (hbase : graph.OneBase)
    (hrun : branchChangesProjection graph fuel (some kind) properties required branch [] =
      some (false, visited)) {a : GraphLocation} (ha : MakesApplicable graph branch a) :
    ∃ atHand, (branchWalk graph fuel (some kind) properties required).own a atHand = some false ∧
      ∀ identity ∈ atHand, ∃ b, ReferredFrom graph branch b ∧ schemaIdentity b = identity := by
  have hone : Explore.OneNode (branchWalk graph fuel (some kind) properties required) :=
    fun _ _ _ _ hb hd hkey => referenceTarget_one hbase hb hd hkey
  obtain ⟨atHand, hown, hall⟩ := Explore.search_false hone hrun (reaches_branch.mpr ha)
  refine ⟨atHand, hown, fun identity hin => ?_⟩
  obtain ⟨d, e, hd, hrefers, hkey⟩ := hall identity hin
  exact ⟨e, ⟨d, reaches_branch.mp hd, hrefers⟩, hkey⟩

theorem applicable_quiet (hbase : graph.OneBase)
    (hrun : branchChangesProjection graph fuel (some kind) properties required branch [] =
      some (false, visited)) {a : GraphLocation} (ha : MakesApplicable graph branch a) :
    changesPresence (some kind) required a = false ∧
      (∀ keyword ∈ choiceKeywords, hasKeyword a keyword = false) ∧
      changesKind (some kind) a = false := by
  obtain ⟨_, hown, _⟩ := branch_asked hbase hrun ha
  exact (branch_quiet hown).2

/-- A property of the branch is asked up to the references the branch itself has followed. -/
theorem property_asked (hbase : graph.OneBase) {kinds : Finset ProjectedKind}
    {atHand visited' : List SchemaIdentity} {root : GraphLocation}
    (hatHand : ∀ identity ∈ atHand,
      ∃ b, ReferredFrom graph branch b ∧ schemaIdentity b = identity)
    (hrun : propertySchemaChangesProjection graph fuel root kinds atHand = some (false, visited'))
    {a : GraphLocation} (ha : Applies graph root a) :
    (propertyWalk graph kinds).own a atHand = some false ∨
      ∃ b, ReferredFrom graph branch b ∧ Applies graph root b ∧ Applies graph b a := by
  have hone : Explore.OneNode (propertyWalk graph kinds) :=
    fun _ _ _ _ hb hd hkey => referenceTarget_one hbase hb hd hkey
  obtain ⟨seen, hexplored, hroot, -⟩ := Explore.search_finds hone fuel root atHand visited' hrun
  have hseen : seen a ∨
      ∃ b, ReferredFrom graph branch b ∧ Applies graph root b ∧ Applies graph b a := by
    induction ha with
    | refl => exact .inl hroot
    | tail hbefore hjoins ih =>
      rename_i b c
      rcases ih with hb | ⟨d, hd, hroot', happlies⟩
      · rcases hjoins with hrefers | hchild
        · rcases hexplored.target b hb c hrefers with hc | hc
          · exact .inl hc
          · obtain ⟨d, hd, hidentity⟩ := hatHand _ hc
            obtain ⟨e, he, htarget⟩ := hd
            obtain rfl := referenceTarget_one hbase htarget hrefers hidentity
            exact .inr ⟨d, ⟨e, he, htarget⟩, hbefore.tail (.inl hrefers), .refl⟩
        · exact .inl (hexplored.children b hb c hchild)
      · exact .inr ⟨d, hd, hroot', happlies.tail hjoins⟩
  refine hseen.imp (fun hin => ?_) id
  obtain ⟨_, hown, _⟩ := hexplored.quiet a hin
  exact hown

theorem ReferredFrom.makesApplicable {a : GraphLocation} (h : ReferredFrom graph branch a) :
    MakesApplicable graph branch a := by
  obtain ⟨b, hb, htarget⟩ := h
  exact hb.tail (.inl (.inl htarget))

/-- A property of a schema the branch makes applicable. -/
theorem property_of_branch (hbase : graph.OneBase)
    (hrun : branchChangesProjection graph fuel (some .object) properties required branch [] =
      some (false, visited)) {located : GraphLocation}
    (hlocated : MakesApplicable graph branch located) {name : String}
    {schema : Option GraphLocation} (hproperty : (name, schema) ∈ propertySchemas graph located) :
    ∃ root kinds, schema = some root ∧ SortedMap.get name properties = some kinds ∧
      ∀ a, Applies graph root a →
        (∃ atHand, (propertyWalk graph kinds).own a atHand = some false) ∨
          ∃ b, ReferredFrom graph branch b ∧ Applies graph root b ∧ Applies graph b a := by
  obtain ⟨atHand, hown, hatHand⟩ := branch_asked hbase hrun hlocated
  obtain ⟨hadds, -⟩ := branch_quiet hown
  rw [addsProperties, if_pos rfl] at hadds
  obtain ⟨root, kinds, visited', hschema, hget, hsearch⟩ :=
    addsProperty_false (anyM_false hadds _ hproperty)
  refine ⟨root, kinds, hschema, hget, fun a ha => ?_⟩
  exact (property_asked hbase hatHand hsearch ha).imp (fun h => ⟨atHand, h⟩) id

end Keeps

theorem mem_declaredNames {applicable : List GraphLocation} {name : String} :
    name ∈ declaredNames graph applicable ↔
      ∃ located ∈ applicable, ∃ schema, (name, schema) ∈ propertySchemas graph located := by
  rw [declaredNames, List.mem_flatMap]
  constructor
  · rintro ⟨located, hlocated, hname⟩
    obtain ⟨⟨_, schema⟩, hproperty, rfl⟩ := List.mem_map.mp hname
    exact ⟨located, hlocated, schema, hproperty⟩
  · rintro ⟨located, hlocated, schema, hproperty⟩
    exact ⟨located, hlocated, List.mem_map.mpr ⟨_, hproperty, rfl⟩⟩

theorem mem_typeDeclarations_located {applicable : List GraphLocation} {declared : Value} :
    declared ∈ typeDeclarations (applicable.map locatedSchema) ↔
      ∃ located ∈ applicable, located.schema.get "type" = some declared := by
  rw [mem_typeDeclarations]
  constructor
  · rintro ⟨_, hmem, htype⟩
    obtain ⟨located, hlocated, rfl⟩ := List.mem_map.mp hmem
    exact ⟨located, hlocated, htype⟩
  · rintro ⟨located, hlocated, htype⟩
    exact ⟨_, List.mem_map_of_mem hlocated, htype⟩

/-- A branch that is found to change nothing, and what it does not change. -/
theorem branch_keeps_projection (hbase : graph.OneBase) {applicable : List GraphLocation}
    {kind : ProjectedKind} (hkind : inferKind (applicable.map locatedSchema) = some kind)
    {fuel fuel' : Nat} {properties : PropertyKinds}
    (hproperties : independentPropertyKinds graph fuel' applicable = some properties)
    {branch : GraphLocation} {visited : List SchemaIdentity}
    (hrun : branchChangesProjection graph fuel (some kind) properties
      (independentRequired applicable) branch [] = some (false, visited))
    {added : List GraphLocation} (hadded : ∀ a ∈ added, MakesApplicable graph branch a) :
    inferKind ((applicable ++ added).map locatedSchema) = some kind ∧
    (∀ a ∈ added, ∀ keyword ∈ choiceKeywords, hasKeyword a keyword = false) ∧
    (kind = .object →
      (∀ name, name ∈ declaredNames graph (applicable ++ added) ↔
        name ∈ declaredNames graph applicable) ∧
      (∀ name, name ∈ independentRequired (applicable ++ added) ↔
        name ∈ independentRequired applicable) ∧
      ∀ name,
        (∀ a, PropertyApplies graph added name a →
          ∀ keyword ∈ choiceKeywords, hasKeyword a keyword = false) ∧
        ((∀ a, PropertyApplies graph added name a → ¬ ReferredFrom graph branch a) →
          ∀ old new : List GraphLocation, (∀ a, a ∈ old ↔ PropertyApplies graph applicable name a) →
            (∀ a, a ∈ new ↔ PropertyApplies graph (applicable ++ added) name a) →
            inferKind (new.map locatedSchema) = inferKind (old.map locatedSchema))) := by
  have hquiet (a : GraphLocation) (ha : MakesApplicable graph branch a) :=
    applicable_quiet hbase hrun ha
  refine ⟨?_, fun a ha => (hquiet a (hadded a ha)).2.1, ?_⟩
  · rw [List.map_append]
    refine inferKind_append hkind fun declared hdeclared => ?_
    obtain ⟨located, hlocated, htype⟩ := mem_typeDeclarations_located.mp hdeclared
    exact branch_type (hquiet located (hadded located hlocated)).2.2 htype
  · rintro rfl
    have hpresent {located : GraphLocation} (hlocated : located ∈ added) {name : String}
        {schema : Option GraphLocation}
        (hproperty : (name, schema) ∈ propertySchemas graph located) :=
      property_of_branch hbase hrun (hadded located hlocated) hproperty
    refine ⟨fun name => ?_, fun name => ?_, fun name => ⟨?_, ?_⟩⟩
    · rw [mem_declaredNames, mem_declaredNames]
      constructor
      · rintro ⟨located, hlocated, schema, hproperty⟩
        rcases List.mem_append.mp hlocated with hold | hnew
        · exact ⟨located, hold, schema, hproperty⟩
        · obtain ⟨_, kinds, _, hget, _⟩ := hpresent hnew hproperty
          exact mem_declaredNames.mp (mem_independentPropertyKinds hproperties hget).1
      · rintro ⟨located, hlocated, hproperty⟩
        exact ⟨located, List.mem_append_left _ hlocated, hproperty⟩
    · rw [independentRequired, independentRequired, List.flatMap_append, List.mem_append]
      refine ⟨fun hname => ?_, .inl⟩
      rcases hname with hold | hnew
      · exact hold
      · obtain ⟨located, hlocated, hrequired⟩ := List.mem_flatMap.mp hnew
        exact branch_required (hquiet located (hadded located hlocated)).1 hrequired
    · rintro a ⟨located, hlocated, root, hproperty, happlies⟩ keyword hkeyword
      obtain ⟨_, kinds, hroot, _, hasked⟩ := hpresent hlocated hproperty
      obtain rfl := Option.some.inj hroot
      rcases hasked a happlies with ⟨_, hown⟩ | ⟨b, hb, _, happlies'⟩
      · exact (property_quiet hown).1 keyword hkeyword
      · exact (hquiet a (hb.makesApplicable.trans happlies'.makesApplicable)).2.1 keyword hkeyword
    · intro hapart old new hold hnew
      refine inferKind_congr fun declared => ?_
      rw [mem_typeDeclarations_located, mem_typeDeclarations_located]
      constructor
      · rintro ⟨a, ha, htype⟩
        obtain ⟨located, hlocated, root, hproperty, happlies⟩ := (hnew a).mp ha
        rcases List.mem_append.mp hlocated with hin | hin
        · exact ⟨a, (hold a).mpr ⟨located, hin, root, hproperty, happlies⟩, htype⟩
        · obtain ⟨_, kinds, hroot, hget, hasked⟩ := hpresent hin hproperty
          obtain rfl := Option.some.inj hroot
          rcases hasked a happlies with ⟨_, hown⟩ | ⟨b, hb, hreached, _⟩
          · obtain ⟨kind, hkind, rfl⟩ := property_type (property_quiet hown).2 htype
            obtain ⟨c, hc, hdeclared⟩ := (mem_independentPropertyKinds hproperties hget).2 kind
              (Finset.mem_singleton_self kind)
            exact ⟨c, (hold c).mpr hc, declares_same hdeclared hkind ▸ htype⟩
          · exact absurd hb (hapart b ⟨located, hin, root, hproperty, hreached⟩)
      · rintro ⟨a, ha, htype⟩
        obtain ⟨located, hlocated, hrest⟩ := (hold a).mp ha
        exact ⟨a, (hnew a).mpr ⟨located, List.mem_append_left _ hlocated, hrest⟩, htype⟩

/-! ## Samples -/

/-- One document, whose references lead nowhere. -/
def plainGraph (document : Value) : ResourceGraph where
  uris := ⟨fun _ _ => none, fun _ => none⟩
  documents := [document]
  aliases := [("urn:form", ⟨0, "urn:form", []⟩)]
  anchors := []

theorem plainGraph_oneBase (document : Value) : (plainGraph document).OneBase := by
  intro baseResource reference _ _ target _ h
  cases h

def rootOf (document : Value) : GraphLocation := ⟨document, 0, "urn:form", [], [], []⟩

def branchOf (branch : Value) : GraphLocation :=
  ⟨branch, 0, "urn:form", ["then"], ["then"], []⟩

def conditionalText (branch : Value) : Value := .object [
  ("if", .object []),
  ("properties", .object [("a", .object [("type", .string "integer")])]),
  ("required", .array [.string "a"]),
  ("then", branch),
  ("type", .string "object")]

/-- Says again what the list says. -/
def repeated : Value := .object [
  ("properties", .object [("a", .object [("type", .string "integer")])]),
  ("required", .array [.string "a"]),
  ("type", .string "object")]

theorem branch_keeps_projection_repeated :
    inferKind ([rootOf (conditionalText repeated), branchOf repeated].map locatedSchema) =
      some .object ∧
    ∀ name, name ∈ declaredNames (plainGraph (conditionalText repeated))
        [rootOf (conditionalText repeated), branchOf repeated] ↔
      name ∈ declaredNames (plainGraph (conditionalText repeated))
        [rootOf (conditionalText repeated)] := by
  have hkind : inferKind ([rootOf (conditionalText repeated)].map locatedSchema) =
      some .object := by decide +kernel
  have hproperties : independentPropertyKinds (plainGraph (conditionalText repeated)) 3
      [rootOf (conditionalText repeated)] = some [("a", {.integer})] := by decide +kernel
  have hrun : branchChangesProjection (plainGraph (conditionalText repeated)) 3 (some .object)
      [("a", {.integer})] (independentRequired [rootOf (conditionalText repeated)])
      (branchOf repeated) [] = some (false, []) := by decide +kernel
  have hadded : ∀ a ∈ [branchOf repeated],
      MakesApplicable (plainGraph (conditionalText repeated)) (branchOf repeated) a :=
    fun a ha => List.mem_singleton.mp ha ▸ .refl
  have h := branch_keeps_projection (plainGraph_oneBase (conditionalText repeated)) hkind
    hproperties hrun hadded
  exact ⟨h.1, (h.2.2 rfl).1⟩

/-! The properties of a scalar are not asked. -/

def scalarText : Value := .object [
  ("if", .object []),
  ("then", .object [("properties", .object [("a", .object [])])]),
  ("type", .string "string")]

def scalarBranch : GraphLocation := branchOf (.object [("properties", .object [("a", .object [])])])

theorem scalar_branch_declares : (plainGraph scalarText).OneBase ∧
    inferKind ([rootOf scalarText].map locatedSchema) = some .string ∧
    independentPropertyKinds (plainGraph scalarText) 3 [rootOf scalarText] = some [] ∧
    conditionalBranches (plainGraph scalarText) (rootOf scalarText) = [some scalarBranch] ∧
    branchChangesProjection (plainGraph scalarText) 3 (some .string) []
      (independentRequired [rootOf scalarText]) scalarBranch [] = some (false, []) ∧
    "a" ∈ declaredNames (plainGraph scalarText) [rootOf scalarText, scalarBranch] ∧
    "a" ∉ declaredNames (plainGraph scalarText) [rootOf scalarText] := by
  refine ⟨plainGraph_oneBase _, ?_, ?_, ?_, ?_, ?_, ?_⟩ <;> decide +kernel

/-! Under a second base nothing is asked: `t` is a plain schema from `a:`, and an enum from `b:`,
which is the same document. -/

def twoBasesGraph : ResourceGraph where
  uris := ⟨fun base reference => some (if reference = "t" then base ++ reference else reference),
    some⟩
  documents := [.object [], .object [("$ref", .string "t")], .object [],
    .object [("enum", .array [.null])]]
  aliases := [("urn:form", ⟨0, "urn:form", []⟩), ("a:", ⟨1, "a:", []⟩), ("b:", ⟨1, "b:", []⟩),
    ("a:t", ⟨2, "a:t", []⟩), ("b:t", ⟨3, "b:t", []⟩)]
  anchors := []

def twoBasesBranch : GraphLocation :=
  branchOf (.object [("allOf", .array [.object [("$ref", .string "a:")],
    .object [("$ref", .string "b:")]])])

theorem second_base_unasked :
    branchChangesProjection twoBasesGraph 4 (some .string) [] [] twoBasesBranch [] =
      some (false, [(2, []), (1, [])]) ∧
    ∃ added, MakesApplicable twoBasesGraph twoBasesBranch added ∧
      hasKeyword added "enum" = true := by
  refine ⟨by decide +kernel, ⟨.object [("enum", .array [.null])], 3, "b:t", [], [], []⟩, ?_,
    by decide +kernel⟩
  have hallOf : Conditions twoBasesGraph twoBasesBranch ⟨.object [("$ref", .string "b:")], 0,
      "urn:form", ["then", "allOf", "1"], ["then", "allOf", "1"], []⟩ :=
    .inl (.inr (by decide +kernel))
  have hsecond : Conditions twoBasesGraph ⟨.object [("$ref", .string "b:")], 0, "urn:form",
      ["then", "allOf", "1"], ["then", "allOf", "1"], []⟩
      ⟨.object [("$ref", .string "t")], 1, "b:", [], [], []⟩ := .inl (.inl (by decide +kernel))
  have henum : Conditions twoBasesGraph ⟨.object [("$ref", .string "t")], 1, "b:", [], [], []⟩
      ⟨.object [("enum", .array [.null])], 3, "b:t", [], [], []⟩ := .inl (.inl (by decide +kernel))
  exact ((Relation.ReflTransGen.single hallOf).tail hsecond).tail henum

/-! A property is asked only up to the references the branch has followed: `p` is a string, and
`urn:loop`, which is followed for the branch first, makes it an object too. -/

def loopText : Value := .object [
  ("properties", .object [("p", .object [("$ref", .string "urn:loop")])]),
  ("type", .string "object")]

def loopGraph : ResourceGraph where
  uris := ⟨fun _ reference => some reference, some⟩
  documents := [.object [], loopText]
  aliases := [("urn:form", ⟨0, "urn:form", []⟩), ("urn:loop", ⟨1, "urn:loop", []⟩)]
  anchors := []

example : branchChangesProjection loopGraph 3 (some .object) [("p", {.string})] []
    (branchOf (.object [("$ref", .string "urn:loop")])) [] = some (false, [(1, [])]) := by
  decide +kernel

end Schemaform.Engine
