import Schemaform.Resources.TablesSpec

/-!
# Resources.TargetSpec

Indexing on the way to the target of a reference.

* `Settled`: where a place has an `$id`, the resource it opens has its root there.
* `indexReferenceTarget_yields`: indexing a target settles it and does not panic.
-/

namespace Schemaform.Resources

namespace ResourceTables

variable {library : Library} {given : List ResourceDocument} {tables tables' : ResourceTables}

/-- A place without an `$id`, or one that is a root. -/
def Settled (given : List ResourceDocument) (tables : ResourceTables) (documentIndex : Nat)
    (pointer : Pointer) : Prop :=
  (identityAt given documentIndex pointer).isSome = true → ∃ root : ResourceRoot,
    tables.aliases.lookup root.resource = some root ∧ root.documentIndex = documentIndex ∧
      root.documentPointer = pointer

theorem Settled.grows {documentIndex : Nat} {pointer : Pointer}
    (h : Settled given tables documentIndex pointer) (hgrows : Grows tables tables') :
    Settled given tables' documentIndex pointer := by
  intro hid
  obtain ⟨root, hroot, hplace⟩ := h hid
  exact ⟨root, hgrows.aliases _ _ hroot, hplace⟩

/-! ## On the way to a target -/

/-- How far the way to a target has been indexed. -/
structure Reached (given : List ResourceDocument) (documentIndex : Nat) (pointer : Pointer)
    (root : ResourceRoot) (tables : ResourceTables) : Prop where
  under : Under tables (pointer, root)
  document : root.documentIndex = documentIndex
  opened : (identityAt given documentIndex pointer).isSome = true → root.documentPointer = pointer

theorem Reached.settled {documentIndex : Nat} {pointer : Pointer} {root : ResourceRoot}
    (h : Reached given documentIndex pointer root tables) :
    Settled given tables documentIndex pointer :=
  fun hid => ⟨root, h.under.root, h.document, h.opened hid⟩

theorem indexTowards_yields (hinv : WellFormed library given tables) {fuel documentIndex : Nat}
    (hfuel : unseen library.uris given tables.indexedSchemas < fuel) {pointer : Pointer}
    {root : ResourceRoot} (hreached : Reached given documentIndex pointer root tables)
    (target : Pointer) (token : String) :
    Yields (indexTowards library fuel documentIndex target (pointer, root, tables) token)
      (fun reached => reached.1 = pointer ++ [token] ∧ Indexes library given tables reached.2.2 ∧
        Reached given documentIndex reached.1 reached.2.1 reached.2.2)
      PrepareError.Reported := by
  obtain ⟨hunder, rfl, -⟩ := hreached
  obtain ⟨above, habove⟩ := hunder.below
  have habove : pointer = root.documentPointer ++ above := habove
  have hunder' : Under tables (pointer ++ [token], root) :=
    ⟨hunder.root, above ++ [token], by simp [habove]⟩
  have hne : pointer ++ [token] ≠ root.documentPointer := by
    intro heq
    rw [habove, List.append_assoc] at heq
    simp at heq
  unfold indexTowards
  dsimp only
  refine (hinv.toSound.document_yields (hunder.document_isSome hinv.toSound)).bind
    fun document _ hd => ?_
  refine (orInvalidGraph_yields _).bind fun schema _ hschema => ?_
  obtain ⟨-, -, hidentity, -⟩ := schemaIn_of_document hinv.toSound hd hschema
  have hindexing : Yields
      (if (textMember schema "$id").isSome = true ∨ pointer ++ [token] = target then
        tables.indexSchema library fuel (pointer ++ [token]) root else .ok tables)
      (fun t => Indexes library given tables t ∧ ((textMember schema "$id").isSome = true →
        indexedKey (pointer ++ [token], root) ∈ t.indexedSchemas)) PrepareError.Reported := by
    by_cases hindex : (textMember schema "$id").isSome = true ∨ pointer ++ [token] = target
    · rw [if_pos hindex]
      exact (indexSchema_yields hinv hunder' hfuel).mono fun t ht => ⟨ht.1, fun _ => ht.2⟩
    · rw [if_neg hindex]
      exact ⟨.refl hinv, fun hid => absurd (.inl hid) hindex⟩
  refine hindexing.bind fun t _ ht => ?_
  obtain ⟨hindexes, hkey⟩ := ht
  cases hid : textMember schema "$id" with
  | none =>
    refine ⟨rfl, hindexes, hunder'.grows hindexes.grows.toGrows, rfl, fun hsome => ?_⟩
    rw [hidentity, hid] at hsome
    cases hsome
  | some identity =>
    obtain ⟨owner, howner⟩ := hindexes.wellFormed.indexed _ (hkey (by rw [hid]; rfl))
    -- the root that was indexed under is the one at hand
    obtain rfl : owner = root := by
      have hroot := hindexes.grows.aliases _ _ hunder.root
      have hresource : owner.resource = root.resource := howner.resource
      have hregistered := howner.registered
      rw [hresource] at hregistered
      exact Option.some.inj (hregistered.symm.trans hroot)
    obtain ⟨canonical, hcanonical, hlookup⟩ :=
      howner.opened identity (hidentity.trans hid) hne
    dsimp only
    refine (orInvalidGraph_yields _).bind fun opened _ hopened => ?_
    obtain rfl : canonical = opened := Option.some.inj (hcanonical.symm.trans hopened)
    rw [hlookup]
    exact ⟨rfl, hindexes, ⟨hlookup, [], (List.append_nil _).symm⟩, rfl, fun _ => rfl⟩

theorem indexSuffix_yields {fuel documentIndex : Nat} (target suffix : Pointer) :
    ∀ (pointer : Pointer) (root : ResourceRoot) (tables : ResourceTables),
      WellFormed library given tables →
      unseen library.uris given tables.indexedSchemas < fuel →
      Reached given documentIndex pointer root tables →
      Yields (suffix.foldlM (indexTowards library fuel documentIndex target) (pointer, root, tables))
        (fun reached => reached.1 = pointer ++ suffix ∧ Indexes library given tables reached.2.2 ∧
          Reached given documentIndex reached.1 reached.2.1 reached.2.2)
        PrepareError.Reported := by
  induction suffix with
  | nil =>
    intro pointer root tables hinv _ hreached
    exact ⟨(List.append_nil pointer).symm, .refl hinv, hreached⟩
  | cons token suffix ih =>
    intro pointer root tables hinv hfuel hreached
    rw [List.foldlM_cons]
    refine (indexTowards_yields hinv hfuel hreached target token).bind fun reached _ hstep => ?_
    obtain ⟨middle, root', t⟩ := reached
    obtain ⟨hpointer, hindexes, hreached'⟩ := hstep
    have hfuel' : unseen library.uris given t.indexedSchemas < fuel :=
      Nat.lt_of_le_of_lt (unseen_mono hindexes.grows.indexed) hfuel
    refine (ih middle root' t hindexes.wellFormed hfuel' hreached').mono fun result hresult => ?_
    obtain ⟨hresultPointer, hindexes', hresultReached⟩ := hresult
    refine ⟨?_, hindexes.trans hindexes', hresultReached⟩
    rw [hresultPointer, show middle = pointer ++ [token] from hpointer, List.append_assoc]
    rfl

theorem indexReferenceTarget_yields (hinv : WellFormed library given tables)
    {fuel documentIndex : Nat} (hfuel : unseen library.uris given tables.indexedSchemas < fuel)
    {root : ResourceRoot} (hroot : tables.aliases.lookup root.resource = some root)
    (hdocument : root.documentIndex = documentIndex) (target : Pointer) :
    Yields (tables.indexReferenceTarget library fuel documentIndex target root)
      (fun t => Indexes library given tables t ∧ Settled given t documentIndex target)
      PrepareError.Reported := by
  unfold indexReferenceTarget
  refine (orInvalidGraph_yields _).bind fun suffix _ hsuffix => ?_
  obtain rfl := relativePointer_eq_some.mp hsuffix
  have hreached : Reached given documentIndex root.documentPointer root tables :=
    ⟨⟨hroot, [], (List.append_nil _).symm⟩, hdocument, fun _ => rfl⟩
  refine (indexSuffix_yields _ suffix root.documentPointer root tables hinv hfuel hreached).bind
    fun reached _ hresult => ?_
  obtain ⟨pointer, root', t⟩ := reached
  obtain ⟨hpointer, hindexes, hreached'⟩ := hresult
  obtain rfl : pointer = root.documentPointer ++ suffix := hpointer
  exact ⟨hindexes, hreached'.settled⟩

end ResourceTables

end Schemaform.Resources
