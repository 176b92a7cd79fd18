import Schemaform.Dioxus.Handle
import Schemaform.Lib.Association

/-!
# Dioxus.HandleSpec

What a handle publishes against what its readers would read.

* `call_effect`: a call leaves the handle alone, ends it, or publishes one transition.
* `Current`: the table of signals has the nodes of the form, the projections are up to date.
* `published_current`: in every reachable handle.
* `call_caused`: a signal is written with a change of what it guards.
* `quiet_run`: what a run leaves as it was when it does not write a signal.
-/

namespace Schemaform.Dioxus

/-- Calls that compare every observation before and after. -/
def HandleCall.observesAll : HandleCall → Bool
  | .operation performed => performed.1.observesAll
  | .dispose => false

namespace HandleInner

variable {handle : HandleInner} {form : Form} {t : Transition} {identity : InstanceIdentity}
  {nodeVersions : NodeVersions}

/-! ## The table of signals -/

/-- The nodes that have a signal. -/
def keys (nodeVersions : NodeVersions) : List InstanceIdentity := nodeVersions.map Prod.fst

theorem lookup_isSome : (nodeVersions.lookup identity).isSome ↔ identity ∈ keys nodeVersions := by
  simp [keys]

theorem keys_insertVersion (form : Form) (identity : InstanceIdentity)
    (h : (keys nodeVersions).Nodup) :
    (keys (insertVersion form nodeVersions identity)).Nodup ∧
    ∀ other, other ∈ keys (insertVersion form nodeVersions identity) ↔
      other ∈ keys nodeVersions ∨ other = identity ∧ (form.node identity).isSome := by
  unfold insertVersion
  split
  · rename_i hnew
    simp only [Bool.and_eq_true, Option.isNone_iff_eq_none, ← Option.not_isSome_iff_eq_none,
      lookup_isSome] at hnew
    obtain ⟨hfresh, hnode⟩ := hnew
    have happend : keys (nodeVersions ++ [(identity, 0)]) = keys nodeVersions ++ [identity] := by
      simp [keys]
    rw [happend]
    refine ⟨h.append (List.nodup_singleton identity) (by simpa using hfresh), fun other => ?_⟩
    simp [hnode]
  · rename_i hold
    refine ⟨h, fun other => ⟨.inl, ?_⟩⟩
    rintro (hmem | ⟨rfl, hnode⟩)
    · exact hmem
    · by_contra hfresh
      refine hold ?_
      simp only [Bool.and_eq_true, Option.isNone_iff_eq_none, ← Option.not_isSome_iff_eq_none,
        lookup_isSome]
      exact ⟨hfresh, hnode⟩

theorem keys_inserted (form : Form) (changed : List InstanceIdentity)
    (h : (keys nodeVersions).Nodup) :
    (keys (changed.foldl (insertVersion form) nodeVersions)).Nodup ∧
    ∀ other, other ∈ keys (changed.foldl (insertVersion form) nodeVersions) ↔
      other ∈ keys nodeVersions ∨ other ∈ changed ∧ (form.node other).isSome := by
  induction changed generalizing nodeVersions with
  | nil => simp [h]
  | cons identity changed ih =>
    obtain ⟨hnodup, hmem⟩ := keys_insertVersion form identity h
    obtain ⟨hnodup', hmem'⟩ := ih hnodup
    refine ⟨hnodup', fun other => ?_⟩
    rw [List.foldl_cons, hmem', hmem, List.mem_cons]
    constructor
    · rintro ((h | ⟨rfl, hnode⟩) | ⟨h, hnode⟩)
      · exact .inl h
      · exact .inr ⟨.inl rfl, hnode⟩
      · exact .inr ⟨.inr h, hnode⟩
    · rintro (h | ⟨rfl | h, hnode⟩)
      · exact .inl (.inl h)
      · exact .inl (.inr ⟨rfl, hnode⟩)
      · exact .inr ⟨h, hnode⟩

theorem keys_bumped (changed : List InstanceIdentity) (nodeVersions : NodeVersions) :
    keys (changed.foldl bumpVersion nodeVersions) = keys nodeVersions := by
  induction changed generalizing nodeVersions with
  | nil => rfl
  | cons identity changed ih =>
    rw [List.foldl_cons, ih, keys, keys, bumpVersion, List.map_map]
    refine List.map_congr_left fun entry _ => ?_
    simp only [Function.comp_apply]
    split <;> rfl

theorem keys_publishNodes (form : Form) (t : Transition) (h : (keys nodeVersions).Nodup) :
    (keys (publishNodes form t nodeVersions)).Nodup ∧
    ∀ other, other ∈ keys (publishNodes form t nodeVersions) ↔ other ∉ t.removed ∧
      (other ∈ keys nodeVersions ∨ other ∈ t.changed ∧ (form.node other).isSome) := by
  obtain ⟨hnodup, hmem⟩ := keys_inserted form t.changed h
  unfold publishNodes
  dsimp only
  rw [keys_bumped]
  have hfilter (l : NodeVersions) : keys (l.filter fun entry => !t.removed.contains entry.1) =
      (keys l).filter fun other => !t.removed.contains other := by
    rw [keys, keys, List.filter_map]
    rfl
  rw [hfilter]
  refine ⟨hnodup.filter _, fun other => ?_⟩
  rw [List.mem_filter, hmem]
  simp [and_comm]

/-! ## One call -/

/-- The handle with a form that has moved, and what it publishes about it. -/
def published (handle : HandleInner) (form : Form) (t : Transition) : HandleInner × List Signal :=
  { handle with form }.applyTransition t

/-- What a call may do to a handle and through which signals. -/
inductive CallEffect (handle : HandleInner) : HandleCall → HandleInner → List Signal → Prop where
  /-- Refused, by the handle or by the form. -/
  | refused {operation : WellFormedOperation} : CallEffect handle (.operation operation) handle []
  | ran {operation : WellFormedOperation} {t : Transition} :
    handle.disposed = false → operation.1.restarts = false →
    (handle.form.step operation.1).2 = .ok t →
    CallEffect handle (.operation operation)
      (handle.published (handle.form.step operation.1).1 t).1
      (handle.published (handle.form.step operation.1).1 t).2
  | restarted {operation : WellFormedOperation} {t : Transition} :
    handle.disposed = false → operation.1.restarts = true →
    (handle.form.step operation.1).2 = .ok t →
    CallEffect handle (.operation operation)
      (handle.published (handle.form.step operation.1).1 t).1.advanceLifecycle.1
      ((handle.published (handle.form.step operation.1).1 t).2 ++ [.lifecycle])
  | disposed : CallEffect handle .dispose { handle with disposed := true } []

theorem ensureLive_live (h : handle.disposed = false) : handle.ensureLive = .ok () := by
  simp [ensureLive, h]

theorem applyOperation_disposed (h : handle.disposed = true) (operation : Operation) :
    handle.applyOperation operation = ⟨handle, [], .error .disposed⟩ := by
  simp [applyOperation, ensureLive, h]

theorem applyOperation_error (hlive : handle.disposed = false) {operation : Operation}
    {error : OperationError} (h : (handle.form.step operation).2 = .error error) :
    handle.applyOperation operation =
      ⟨{ handle with form := (handle.form.step operation).1 }, [], .error (.operation error)⟩ := by
  have hstep : handle.form.step operation = ((handle.form.step operation).1, .error error) :=
    Prod.ext rfl h
  unfold applyOperation
  rw [ensureLive_live hlive, hstep]

theorem applyOperation_ok (hlive : handle.disposed = false) {operation : Operation}
    (h : (handle.form.step operation).2 = .ok t) : handle.applyOperation operation =
      ⟨(handle.published (handle.form.step operation).1 t).1,
        (handle.published (handle.form.step operation).1 t).2, .ok t⟩ := by
  have hstep : handle.form.step operation = ((handle.form.step operation).1, .ok t) :=
    Prod.ext rfl h
  unfold applyOperation
  rw [ensureLive_live hlive, hstep]
  rfl

/-- A call that fails, at the handle or in the form, leaves no trace. -/
theorem call_effect (h : formSystem.Reachable handle.form) (call : HandleCall) :
    handle.CallEffect call (handle.call call).1 (handle.call call).2 := by
  cases call with
  | dispose => exact .disposed
  | operation operation =>
    cases hlive : handle.disposed with
    | true =>
      have hcall : handle.call (.operation operation) = (handle, []) := by
        simp only [call, applyRestart, applyOperation_disposed hlive]
        split <;> rfl
      rw [hcall]
      exact .refused
    | false =>
      cases hresult : (handle.form.step operation.1).2 with
      | error error =>
        have hform := Form.refused_step h hresult
        have hcall : handle.call (.operation operation) = (handle, []) := by
          simp only [call, applyRestart, applyOperation_error hlive hresult, hform]
          split <;> rfl
        rw [hcall]
        exact .refused
      | ok t =>
        cases hrestarts : operation.1.restarts with
        | false =>
          have hcall : handle.call (.operation operation) =
              handle.published (handle.form.step operation.1).1 t := by
            simp only [call, hrestarts, applyOperation_ok hlive hresult]
            rfl
          rw [hcall]
          exact .ran hlive hrestarts hresult
        | true =>
          have hcall : handle.call (.operation operation) =
              ((handle.published (handle.form.step operation.1).1 t).1.advanceLifecycle.1,
                (handle.published (handle.form.step operation.1).1 t).2 ++ [.lifecycle]) := by
            simp only [call, hrestarts, applyRestart, applyOperation_ok hlive hresult]
            rfl
          rw [hcall]
          exact .restarted hlive hrestarts hresult

/-! ## The invariant -/

structure Current (handle : HandleInner) : Prop where
  reachable : formSystem.Reachable handle.form
  summary : handle.summaryProjection = projectSummary handle.form
  readOnly : handle.readOnly = handle.form.readOnly
  nodup : (keys handle.nodeVersions).Nodup
  nodes : ∀ identity, identity ∈ keys handle.nodeVersions ↔ (handle.form.node identity).isSome

theorem applyTransition_eq (handle : HandleInner) (t : Transition) (h : t.isEmpty = false) :
    (handle.applyTransition t).1 = { handle with
      formVersion := handle.formVersion + 1
      summaryProjection := projectSummary handle.form
      readOnly := handle.form.readOnly
      nodeVersions := publishNodes handle.form t handle.nodeVersions } := by
  simp only [applyTransition, h, Bool.false_eq_true, if_false, bne_iff_ne, ne_eq, ite_not]
  congr 1
  · split
    · rename_i hsame
      exact hsame
    · rfl
  · split
    · rename_i hsame
      exact hsame
    · rfl

theorem published_empty {operation : WellFormedOperation} (h : formSystem.Reachable handle.form)
    (hok : (handle.form.step operation.1).2 = .ok t) (hempty : t.isEmpty = true) :
    handle.published (handle.form.step operation.1).1 t = (handle, []) := by
  have hstate : t.beforeState = t.afterState := by
    simp only [Transition.isEmpty, Bool.and_eq_true, decide_eq_true_eq] at hempty
    exact hempty.1.1.2
  rw [published, Form.still_step h hok hstate, applyTransition, if_pos hempty]

theorem Current.published (h : handle.Current) {operation : WellFormedOperation}
    (hok : (handle.form.step operation.1).2 = .ok t) :
    (handle.published (handle.form.step operation.1).1 t).1.Current := by
  cases hempty : t.isEmpty with
  | true =>
    rw [published_empty h.reachable hok hempty]
    exact h
  | false =>
    have htopology := (Form.reachable_reports h.reachable operation hok).topology
    obtain ⟨hnodup, hkeys⟩ := keys_publishNodes (handle.form.step operation.1).1 t h.nodup
    rw [HandleInner.published, applyTransition_eq _ _ hempty]
    refine ⟨h.reachable.step operation, rfl, rfl, hnodup, fun identity => ?_⟩
    rw [hkeys, h.nodes]
    constructor
    · rintro ⟨hkept, hbefore | ⟨-, hafter⟩⟩
      · by_contra hgone
        rw [Option.not_isSome_iff_eq_none] at hgone
        exact hkept ((htopology.removed identity).mpr ⟨hbefore, hgone⟩)
      · exact hafter
    · intro hafter
      constructor
      · intro hremoved
        have hgone := ((htopology.removed identity).mp hremoved).2
        rw [hgone] at hafter
        cases hafter
      · cases hbefore : handle.form.node identity with
        | some node => exact .inl rfl
        | none => exact .inr ⟨htopology.appeared identity hbefore hafter, hafter⟩

theorem current_new (h : formSystem.init form) : (FormHandle.new form).Current := by
  have hreachable : formSystem.Reachable form := .init h
  have hkeys : keys (FormHandle.new form).nodeVersions = form.instanceIdentities := by
    simp [keys, FormHandle.new, Function.comp_def]
  refine ⟨hreachable, rfl, rfl, ?_, fun identity => ?_⟩
  · rw [hkeys]
    exact Form.instanceIdentities_nodup (Form.reachable_inv hreachable)
  · rw [hkeys]
    exact Form.mem_instanceIdentities (Form.reachable_inv hreachable)

theorem Current.call (h : handle.Current) (call : HandleCall) : (handle.call call).1.Current := by
  have heffect := call_effect h.reachable call
  generalize (handle.call call).1 = handle', (handle.call call).2 = written at heffect
  cases heffect with
  | refused => exact h
  | disposed => exact ⟨h.reachable, h.summary, h.readOnly, h.nodup, h.nodes⟩
  | ran _ _ hok => exact h.published hok
  | restarted _ _ hok =>
    have hpublished := h.published hok
    exact ⟨hpublished.reachable, hpublished.summary, hpublished.readOnly, hpublished.nodup,
      hpublished.nodes⟩

/-! ## What a write says -/

/-- Every node that is listed has a signal by the time it is written. -/
theorem mem_writtenNodes (h : handle.Current) {operation : WellFormedOperation}
    (hok : (handle.form.step operation.1).2 = .ok t) :
    identity ∈ writtenNodes (handle.form.step operation.1).1 t handle.nodeVersions ↔
      identity ∈ t.changed ∨ identity ∈ t.removed := by
  have htopology := (Form.reachable_reports h.reachable operation hok).topology
  have hkeys := (keys_inserted (handle.form.step operation.1).1 t.changed h.nodup).2
  simp only [writtenNodes, List.mem_filter, List.mem_append, lookup_isSome, hkeys, h.nodes]
  refine and_iff_left_of_imp ?_
  rintro (hchanged | hremoved)
  · exact .inr ⟨hchanged, htopology.resolves identity hchanged⟩
  · exact .inl ((htopology.removed identity).mp hremoved).1

theorem mem_published (form : Form) (signal : Signal) (hempty : t.isEmpty = false) :
    signal ∈ (handle.published form t).2 ↔ signal = .form ∨
      signal = .summary ∧ handle.summaryProjection ≠ projectSummary form ∨
      signal = .readOnly ∧ handle.readOnly ≠ form.readOnly ∨
      ∃ identity ∈ writtenNodes form t handle.nodeVersions, signal = .node identity := by
  unfold published applyTransition
  rw [hempty]
  by_cases hsummary : handle.summaryProjection = projectSummary form <;>
    by_cases hreadOnly : handle.readOnly = form.readOnly <;>
    simp [hsummary, hreadOnly, @eq_comm _ _ signal]

/-- What is written has changed. -/
structure Caused (handle handle' : HandleInner) (call : HandleCall) (written : List Signal) :
    Prop where
  summary : .summary ∈ written → projectSummary handle'.form ≠ projectSummary handle.form
  readOnly : .readOnly ∈ written → handle'.form.readOnly ≠ handle.form.readOnly
  node : call.observesAll = true → ∀ identity, .node identity ∈ written ↔
    handle'.form.nodeObservation identity ≠ handle.form.nodeObservation identity

theorem Caused.nothing (handle handle' : HandleInner) (hform : handle'.form = handle.form)
    (call : HandleCall) : handle.Caused handle' call [] := by
  refine ⟨nofun, nofun, fun _ identity => ⟨nofun, fun hne => ?_⟩⟩
  rw [hform] at hne
  exact absurd rfl hne

theorem published_caused (h : handle.Current) {operation : WellFormedOperation}
    (hok : (handle.form.step operation.1).2 = .ok t) :
    handle.Caused (handle.published (handle.form.step operation.1).1 t).1 (.operation operation)
      (handle.published (handle.form.step operation.1).1 t).2 := by
  cases hempty : t.isEmpty with
  | true =>
    rw [published_empty h.reachable hok hempty]
    exact .nothing handle handle rfl _
  | false =>
    have hform : (handle.published (handle.form.step operation.1).1 t).1.form =
        (handle.form.step operation.1).1 := by
      rw [published, applyTransition_eq _ _ hempty]
    have hmem (signal : Signal) : signal ∈ (handle.published (handle.form.step operation.1).1 t).2 ↔
        _ := mem_published _ signal hempty
    constructor
    · intro hsignal
      rw [hmem] at hsignal
      rw [hform, ← h.summary]
      simpa [eq_comm] using hsignal
    · intro hsignal
      rw [hmem] at hsignal
      rw [hform, ← h.readOnly]
      simpa [eq_comm] using hsignal
    · intro hall identity
      have htopology := (Form.reachable_reports h.reachable operation hok).topology
      have hlists := Form.step_differences (Form.reachable_inv h.reachable)
        (Form.reachable_typedShown h.reachable) operation hall hok identity
      rw [hmem, hform]
      simp only [reduceCtorEq, false_and, false_or, Signal.node.injEq, exists_eq_right',
        mem_writtenNodes h hok, hlists, htopology.removed]
      constructor
      · rintro (⟨-, hne⟩ | ⟨hbefore, hafter⟩)
        · exact hne
        · rw [← Form.nodeObservation_isSome] at hbefore
          rw [Form.nodeObservation, hafter, Option.map_none]
          intro heq
          rw [← heq] at hbefore
          cases hbefore
      · intro hne
        cases hafter : ((handle.form.step operation.1).1.node identity) with
        | some node => exact .inl ⟨rfl, hne⟩
        | none =>
          refine .inr ⟨?_, rfl⟩
          rw [Form.nodeObservation, hafter, Option.map_none] at hne
          rw [← Form.nodeObservation_isSome, Option.isSome_iff_ne_none]
          exact hne.symm

theorem call_caused (h : handle.Current) (call : HandleCall) :
    handle.Caused (handle.call call).1 call (handle.call call).2 := by
  have heffect := call_effect h.reachable call
  generalize (handle.call call).1 = handle', (handle.call call).2 = written at heffect
  cases heffect with
  | refused => exact .nothing handle handle rfl _
  | disposed => exact .nothing handle { handle with disposed := true } rfl _
  | ran _ _ hok => exact published_caused h hok
  | restarted _ _ hok =>
    obtain ⟨hsummary, hreadOnly, hnode⟩ := published_caused h hok
    refine ⟨fun hsignal => hsummary ?_, fun hsignal => hreadOnly ?_, fun hall identity => ?_⟩
    · simpa using hsignal
    · simpa using hsignal
    · refine Iff.trans ?_ (hnode hall identity)
      simp

/-! ## What no write says -/

/-- What is guarded by a signal that calls do not write stays as it was: of a node, that it is
there, and after calls on the whole form all it shows. -/
structure Quiet (handle : HandleInner) (calls : List HandleCall) (handle' : HandleInner)
    (written : List Signal) : Prop where
  form : .form ∉ written → handle'.form = handle.form
  summary : .summary ∉ written → projectSummary handle'.form = projectSummary handle.form
  readOnly : .readOnly ∉ written → handle'.form.readOnly = handle.form.readOnly
  lifecycle : .lifecycle ∉ written → handle'.lifecycleVersion = handle.lifecycleVersion
  node : ∀ identity, .node identity ∉ written →
    ((handle'.form.node identity).isSome ↔ (handle.form.node identity).isSome)
  shown : (∀ call ∈ calls, call.observesAll = true) → ∀ identity, .node identity ∉ written →
    handle'.form.nodeObservation identity = handle.form.nodeObservation identity
  disposed : handle'.disposed = false → handle.disposed = false

theorem Quiet.same {handle' : HandleInner} (hform : handle'.form = handle.form)
    (hlifecycle : handle'.lifecycleVersion = handle.lifecycleVersion)
    (hdisposed : handle'.disposed = false → handle.disposed = false) (calls : List HandleCall)
    (written : List Signal) : handle.Quiet calls handle' written where
  form _ := hform
  summary _ := by rw [hform]
  readOnly _ := by rw [hform]
  lifecycle _ := hlifecycle
  node _ _ := by rw [hform]
  shown _ _ _ := by rw [hform]
  disposed := hdisposed

theorem Quiet.trans {handle' handle'' : HandleInner} {calls calls' : List HandleCall}
    {written written' : List Signal} (h : handle.Quiet calls handle' written)
    (h' : handle'.Quiet calls' handle'' written') :
    handle.Quiet (calls ++ calls') handle'' (written ++ written') := by
  have hapart {signal : Signal} (hsignal : signal ∉ written ++ written') :
      signal ∉ written ∧ signal ∉ written' := by
    rwa [List.mem_append, not_or] at hsignal
  constructor
  · intro hsignal
    obtain ⟨hfirst, hsecond⟩ := hapart hsignal
    exact (h'.form hsecond).trans (h.form hfirst)
  · intro hsignal
    obtain ⟨hfirst, hsecond⟩ := hapart hsignal
    exact (h'.summary hsecond).trans (h.summary hfirst)
  · intro hsignal
    obtain ⟨hfirst, hsecond⟩ := hapart hsignal
    exact (h'.readOnly hsecond).trans (h.readOnly hfirst)
  · intro hsignal
    obtain ⟨hfirst, hsecond⟩ := hapart hsignal
    exact (h'.lifecycle hsecond).trans (h.lifecycle hfirst)
  · intro identity hsignal
    obtain ⟨hfirst, hsecond⟩ := hapart hsignal
    exact (h'.node identity hsecond).trans (h.node identity hfirst)
  · intro hall identity hsignal
    obtain ⟨hfirst, hsecond⟩ := hapart hsignal
    have hcalls : ∀ call ∈ calls, call.observesAll = true :=
      fun call hcall => hall call (List.mem_append_left _ hcall)
    have hcalls' : ∀ call ∈ calls', call.observesAll = true :=
      fun call hcall => hall call (List.mem_append_right _ hcall)
    exact (h'.shown hcalls' identity hsecond).trans (h.shown hcalls identity hfirst)
  · intro hlive
    exact h.disposed (h'.disposed hlive)

/-- What the form's own reader reads. -/
theorem Quiet.reads {handle' : HandleInner} {calls : List HandleCall} {written : List Signal}
    (h : handle.Quiet calls handle' written) (hsignal : .form ∉ written)
    (hlive : handle'.disposed = false) :
    FormReader.read handle' = FormReader.read handle ∧
      FormReader.formData handle' = FormReader.formData handle := by
  unfold FormReader.read FormReader.formData
  rw [ensureLive_live hlive, ensureLive_live (h.disposed hlive), h.form hsignal]
  exact ⟨rfl, rfl⟩

theorem published_quiet (h : handle.Current) {operation : WellFormedOperation}
    (hok : (handle.form.step operation.1).2 = .ok t) :
    handle.Quiet [.operation operation] (handle.published (handle.form.step operation.1).1 t).1
      (handle.published (handle.form.step operation.1).1 t).2 := by
  cases hempty : t.isEmpty with
  | true =>
    rw [published_empty h.reachable hok hempty]
    exact .same rfl rfl id _ _
  | false =>
    have htopology := (Form.reachable_reports h.reachable operation hok).topology
    have hform : (handle.published (handle.form.step operation.1).1 t).1.form =
        (handle.form.step operation.1).1 := by
      rw [published, applyTransition_eq _ _ hempty]
    constructor
    · intro hsignal
      exact absurd ((mem_published _ _ hempty).mpr (.inl rfl)) hsignal
    · intro hsignal
      rw [hform]
      by_contra hne
      refine hsignal ((mem_published _ _ hempty).mpr (.inr (.inl ⟨rfl, ?_⟩)))
      rw [h.summary]
      exact fun heq => hne heq.symm
    · intro hsignal
      rw [hform]
      by_contra hne
      refine hsignal ((mem_published _ _ hempty).mpr (.inr (.inr (.inl ⟨rfl, ?_⟩))))
      rw [h.readOnly]
      exact fun heq => hne heq.symm
    · intro _
      rw [published, applyTransition_eq _ _ hempty]
    · intro identity hsignal
      rw [hform]
      have hunlisted : ¬ (identity ∈ t.changed ∨ identity ∈ t.removed) := by
        intro hlisted
        exact hsignal ((mem_published _ _ hempty).mpr
          (.inr (.inr (.inr ⟨identity, (mem_writtenNodes h hok).mpr hlisted, rfl⟩))))
      rw [not_or] at hunlisted
      constructor
      · intro hafter
        by_contra hbefore
        rw [Option.not_isSome_iff_eq_none] at hbefore
        exact hunlisted.1 (htopology.appeared identity hbefore hafter)
      · intro hbefore
        by_contra hafter
        rw [Option.not_isSome_iff_eq_none] at hafter
        exact hunlisted.2 ((htopology.removed identity).mpr ⟨hbefore, hafter⟩)
    · intro hall identity hsignal
      by_contra hne
      exact hsignal (((published_caused h hok).node (hall _ (List.mem_singleton_self _))
        identity).mpr hne)
    · intro hlive
      rw [published, applyTransition_eq _ _ hempty] at hlive
      exact hlive

theorem advanceLifecycle_quiet (handle : HandleInner) :
    handle.Quiet [] handle.advanceLifecycle.1 [.lifecycle] := by
  refine ⟨fun _ => rfl, fun _ => rfl, fun _ => rfl, fun hsignal => ?_, fun _ _ => Iff.rfl,
    fun _ _ _ => rfl, id⟩
  exact absurd (List.mem_singleton_self _) hsignal

theorem call_quiet (h : handle.Current) (call : HandleCall) :
    handle.Quiet [call] (handle.call call).1 (handle.call call).2 := by
  have heffect := call_effect h.reachable call
  generalize (handle.call call).1 = handle', (handle.call call).2 = written at heffect
  cases heffect with
  | refused => exact .same rfl rfl id _ _
  | disposed =>
    refine ⟨fun _ => rfl, fun _ => rfl, fun _ => rfl, fun _ => rfl, fun _ _ => Iff.rfl,
      fun _ _ _ => rfl, fun hlive => ?_⟩
    cases hlive
  | ran _ _ hok => exact published_quiet h hok
  | restarted _ _ hok =>
    exact (published_quiet h hok).trans (advanceLifecycle_quiet _)

/-! ## Runs -/

/-- Each version counts the writes of its signal. -/
theorem call_versions (h : formSystem.Reachable handle.form) (call : HandleCall) :
    (handle.call call).1.formVersion = handle.formVersion + (handle.call call).2.count .form ∧
    (handle.call call).1.lifecycleVersion =
      handle.lifecycleVersion + (handle.call call).2.count .lifecycle := by
  have hpublished (form : Form) (t : Transition) :
      (handle.published form t).1.formVersion =
        handle.formVersion + (handle.published form t).2.count .form ∧
      (handle.published form t).1.lifecycleVersion =
        handle.lifecycleVersion + (handle.published form t).2.count .lifecycle := by
    have hnodes (signal : Signal) (hsignal : ∀ identity, signal ≠ .node identity) :
        ((writtenNodes form t handle.nodeVersions).map Signal.node).count signal = 0 := by
      refine List.count_eq_zero.mpr fun hmem => ?_
      obtain ⟨identity, -, rfl⟩ := List.mem_map.mp hmem
      exact hsignal identity rfl
    have hform := hnodes .form nofun
    have hlifecycle := hnodes .lifecycle nofun
    unfold published applyTransition
    split
    · simp
    · dsimp only
      constructor
      · rw [List.count_append, List.count_append, hform]
        split <;> split <;> simp
      · rw [List.count_append, List.count_append, hlifecycle]
        split <;> split <;> simp
  have heffect := call_effect h call
  generalize (handle.call call).1 = handle', (handle.call call).2 = written at heffect
  cases heffect with
  | refused => exact ⟨rfl, rfl⟩
  | disposed => exact ⟨rfl, rfl⟩
  | ran _ _ hok => exact hpublished _ _
  | restarted _ _ hok =>
    obtain ⟨hform, hlifecycle⟩ := hpublished (handle.form.step _).1 _
    constructor
    · rw [List.count_append]
      exact hform
    · simp only [advanceLifecycle, List.count_append, List.count_singleton_self, hlifecycle,
        Nat.add_assoc]

theorem current_invariant : handleSystem.Invariant Current where
  init := by
    rintro handle ⟨form, hform, rfl⟩
    exact current_new hform
  step := fun _ call h => h.call call

/-- The signals of a handle are those of the nodes its form has, and the projections beside the
form are its own. -/
theorem published_current (h : handleSystem.Reachable handle) : handle.Current :=
  current_invariant.reachable h

/-- The list of strings in a browser, and its item appended. -/
def sample : HandleInner := FormHandle.new Sample.empty

theorem sample_reachable : handleSystem.Reachable sample :=
  .init ⟨Sample.empty,
    ⟨{ definition := Sample.strings, formData := Sample.formData [] }, 0, by decide, rfl⟩, rfl⟩

def sampleAppend : HandleCall :=
  .operation ⟨.appendItem (Sample.empty.identity 1), trivial⟩

def sampleReset : HandleCall := .operation ⟨.reset, trivial⟩

theorem published_current_append :
    (handleSystem.run sample [sampleAppend, sampleReset]).Current :=
  published_current (sample_reachable.run [sampleAppend, sampleReset])

/-- What a reader of the whole form, the summary, the mode or the lifecycle holds is up to date
until one of its signals is written; of a node, that it is there. -/
theorem quiet_run (h : handleSystem.Reachable handle) (calls : List HandleCall) :
    handle.Quiet calls (handleSystem.run handle calls) (handle.written calls) := by
  induction calls generalizing handle with
  | nil => exact .same rfl rfl id _ _
  | cons call calls ih =>
    have hcall := call_quiet (current_invariant.reachable h) call
    exact hcall.trans (ih (h.step call))

/-- The list is filled and emptied again, which the mode of the form is not told. -/
theorem quiet_run_append :
    sample.Quiet [sampleAppend, sampleReset] (handleSystem.run sample [sampleAppend, sampleReset])
      (sample.written [sampleAppend, sampleReset]) ∧
    .form ∈ sample.written [sampleAppend, sampleReset] ∧
    .readOnly ∉ sample.written [sampleAppend, sampleReset] :=
  ⟨quiet_run sample_reachable [sampleAppend, sampleReset], by decide, by decide⟩

/-- No signal but those of the form and of nodes is written without a change of what it guards; a
call on the whole form writes the signals of exactly the nodes that show something else. -/
theorem writes_caused (h : handleSystem.Reachable handle) (call : HandleCall) :
    handle.Caused (handle.call call).1 call (handle.call call).2 :=
  call_caused (current_invariant.reachable h) call

/-- The appended item goes, and the array shows one item less. -/
theorem writes_caused_reset :
    (sample.call sampleAppend).1.Caused ((sample.call sampleAppend).1.call sampleReset).1
      sampleReset ((sample.call sampleAppend).1.call sampleReset).2 ∧
    .node (Sample.empty.identity 1) ∈ ((sample.call sampleAppend).1.call sampleReset).2 :=
  ⟨writes_caused (sample_reachable.step sampleAppend) sampleReset, by decide⟩

end HandleInner

end Schemaform.Dioxus
