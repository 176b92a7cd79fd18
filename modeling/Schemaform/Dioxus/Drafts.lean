import Schemaform.Dioxus.Edit
import Schemaform.Dioxus.HandleSpec

/-!
# Dioxus.Drafts

Composed text reaches the form once or never.

* `DraftSession`: a session as its user sees it. A control may hold a draft, and a new lifecycle
  takes all drafts away.
* `Timely`: no composition is stamped with a lifecycle that is still to come.
* `drafted_step`, `session_refines`: stamped compositions implement drafts, over any run.
* `composition_commits_once`: a composition is as good as one input of its last text.
* `composition_abandoned`: one that meets a new lifecycle was never there.
-/

namespace Schemaform.Dioxus

/-! ## Drafts -/

/-- A draft has no stamp: while it is there, it belongs to the lifecycle. -/
@[ext] structure DraftSession (ι : Type) where
  handle : HandleInner
  targets : ι → InstanceIdentity
  rendered : ι → Option String
  drafts : ι → Option String

namespace DraftSession

variable {ι : Type} [DecidableEq ι] (label : Value → String) (session : DraftSession ι)

/-- What the widget of a control displays. -/
def shown (control : ι) : String :=
  (session.drafts control).getD ((session.rendered control).getD "")

def read (control : ι) : Option String :=
  (readUntracked label session.handle (session.targets control)).map NodeProjection.displayText

def commit (control : ι) (text : String) : DraftSession ι :=
  { session with handle := (session.handle.inputText (session.targets control) text).handle }

/-- The draft of a control, were it to hold one. -/
def drafting (control : ι) (text : String) : DraftSession ι :=
  { session with drafts := Function.update session.drafts control (some text) }

/-- A draft is committed and gone. -/
def finish (control : ι) : DraftSession ι :=
  match session.drafts control with
  | none => session
  | some text =>
    { session.commit control text with drafts := Function.update session.drafts control none }

def step : SessionEvent ι → DraftSession ι
  | .call call =>
    { session with
      handle := (session.handle.call call).1
      drafts := if .lifecycle ∈ (session.handle.call call).2 then fun _ => none
                else session.drafts }
  | .input control text =>
    match session.drafts control with
    | none => session.commit control text
    | some _ => session.drafting control text
  | .compositionStart control =>
    session.drafting control (((session.read label control).or (session.rendered control)).getD "")
  | .compositionEnd control => session.finish control
  | .blur control =>
    let session := session.finish control
    { session with handle := (session.handle.blur (session.targets control)).handle }
  | .render control =>
    { session with
      rendered := Function.update session.rendered control (session.read label control) }

end DraftSession

/-- No control holds a draft at first. -/
def draftSystem (ι : Type) [DecidableEq ι] (label : Value → String) :
    TransitionSystem (DraftSession ι) (SessionEvent ι) where
  init session := handleSystem.Reachable session.handle ∧
    ∀ control, session.drafts control = none
  step session event := session.step label event

/-! ## The drafts of a session -/

/-- The text of a composition that is not stale. -/
def TextEdit.draft (handle : HandleInner) (edit : TextEdit) : Option String :=
  (edit.composition.filter (·.lifecycle = handle.lifecycleVersion)).map Composition.text

namespace Session

variable {ι : Type}

def drafted (session : Session ι) : DraftSession ι where
  handle := session.handle
  targets control := (session.edits control).target
  rendered control := (session.edits control).canonical
  drafts control := (session.edits control).draft session.handle

end Session

namespace TextEdit

variable {label : Value → String} {handle handle' : HandleInner} {edit : TextEdit} {text : String}

theorem draft_none (h : edit.composition = none) : edit.draft handle = none := by
  simp [draft, h]

theorem draft_some {current : Composition} (h : edit.composition = some current) :
    edit.draft handle =
      if current.lifecycle = handle.lifecycleVersion then some current.text else none := by
  unfold draft
  rw [h, Option.filter_some]
  by_cases hcurrent : current.lifecycle = handle.lifecycleVersion
  · simp [hcurrent]
  · simp [hcurrent]

theorem draft_version (h : handle'.lifecycleVersion = handle.lifecycleVersion) :
    edit.draft handle' = edit.draft handle := by
  unfold draft
  rw [h]

theorem value_draft : edit.value handle = (edit.draft handle).getD (edit.canonical.getD "") := by
  unfold value
  cases hcomposition : edit.composition with
  | none => simp [draft_none hcomposition]
  | some current =>
    rw [draft_some hcomposition]
    by_cases hcurrent : current.lifecycle = handle.lifecycleVersion
    · simp [hcurrent]
    · simp [hcurrent]

theorem input_draft : edit.input handle text =
    match edit.draft handle with
    | none => ((handle.inputText edit.target text).handle, edit)
    | some _ => (handle, { edit with composition := some ⟨handle.lifecycleVersion, text⟩ }) := by
  unfold input
  cases hcomposition : edit.composition with
  | none => simp [draft_none hcomposition]
  | some current =>
    rw [draft_some hcomposition]
    by_cases hcurrent : current.lifecycle = handle.lifecycleVersion
    · simp [hcurrent]
    · simp [hcurrent]

theorem finishComposition_draft : edit.finishComposition handle =
    ((edit.draft handle).elim handle fun text => (handle.inputText edit.target text).handle,
      edit.discardComposition) := by
  unfold finishComposition
  cases hcomposition : edit.composition with
  | none =>
    have hdiscard : edit.discardComposition = edit := by rw [discardComposition, ← hcomposition]
    rw [draft_none hcomposition, hdiscard]
    rfl
  | some current =>
    rw [draft_some hcomposition]
    by_cases hcurrent : current.lifecycle = handle.lifecycleVersion
    · simp [hcurrent]
    · simp [hcurrent]

theorem render_draft : (edit.render label handle).draft handle = edit.draft handle := by
  unfold render compositionIsStale
  cases hcomposition : edit.composition with
  | none => simp [draft, hcomposition]
  | some current =>
    rw [draft_some hcomposition]
    by_cases hcurrent : current.lifecycle = handle.lifecycleVersion
    · simp [hcurrent, draft]
    · simp [hcurrent, draft, discardComposition]

end TextEdit

/-! ## Timely sessions -/

namespace HandleInner

variable {handle : HandleInner}

theorem applyTransition_lifecycle (t : Transition) :
    (handle.applyTransition t).1.lifecycleVersion = handle.lifecycleVersion := by
  unfold applyTransition
  split
  · rfl
  · rfl

/-- Only a restart begins a new lifecycle. -/
theorem applyOperation_lifecycle (operation : Operation) :
    (handle.applyOperation operation).handle.lifecycleVersion = handle.lifecycleVersion := by
  unfold applyOperation
  split
  · rfl
  · split
    · rfl
    · exact applyTransition_lifecycle _

theorem inputText_lifecycle (target : InstanceIdentity) (text : String) :
    (handle.inputText target text).handle.lifecycleVersion = handle.lifecycleVersion :=
  applyOperation_lifecycle (.inputText target text)

theorem blur_lifecycle (target : InstanceIdentity) :
    (handle.blur target).handle.lifecycleVersion = handle.lifecycleVersion :=
  applyOperation_lifecycle (.blur target)

theorem inputText_reachable (h : handleSystem.Reachable handle) (target : InstanceIdentity)
    (text : String) : handleSystem.Reachable (handle.inputText target text).handle :=
  h.step (HandleCall.operation ⟨.inputText target text, trivial⟩)

theorem blur_reachable (h : handleSystem.Reachable handle) (target : InstanceIdentity) :
    handleSystem.Reachable (handle.blur target).handle :=
  h.step (HandleCall.operation ⟨.blur target, trivial⟩)

/-- A call keeps the lifecycle unless it writes its signal, and then moves it on. -/
theorem call_lifecycle (h : handleSystem.Reachable handle) (call : HandleCall) :
    if .lifecycle ∈ (handle.call call).2 then
      handle.lifecycleVersion < (handle.call call).1.lifecycleVersion
    else (handle.call call).1.lifecycleVersion = handle.lifecycleVersion := by
  rw [(call_versions (current_invariant.reachable h).reachable call).2]
  split
  · rename_i hwritten
    have := List.count_pos_iff.mpr hwritten
    omega
  · rename_i hunwritten
    rw [List.count_eq_zero.mpr hunwritten, Nat.add_zero]

end HandleInner

namespace Session

variable {ι : Type} {label : Value → String} {session : Session ι} {control : ι}

/-- The handle is one that calls can lead to, and compositions began in this lifecycle or before. -/
structure Timely (session : Session ι) : Prop where
  reachable : handleSystem.Reachable session.handle
  stamps : ∀ control current, (session.edits control).composition = some current →
    current.lifecycle ≤ session.handle.lifecycleVersion

variable [DecidableEq ι]

theorem put_edits (after : HandleInner × TextEdit) (other : ι) :
    (session.put control after).edits other =
      if other = control then after.2 else session.edits other :=
  Function.update_apply ..

theorem Timely.put (h : session.Timely) {handle' : HandleInner} {edit' : TextEdit}
    (hreach : handleSystem.Reachable handle')
    (hversion : handle'.lifecycleVersion = session.handle.lifecycleVersion)
    (hstamp : ∀ current, edit'.composition = some current →
      (session.edits control).composition = some current ∨
        current.lifecycle = session.handle.lifecycleVersion) :
    (session.put control (handle', edit')).Timely := by
  refine ⟨hreach, fun other current hcurrent => ?_⟩
  show current.lifecycle ≤ handle'.lifecycleVersion
  rw [put_edits] at hcurrent
  rw [hversion]
  by_cases hother : other = control
  · rw [if_pos hother] at hcurrent
    rcases hstamp current hcurrent with hold | hnew
    · exact h.stamps control current hold
    · exact Nat.le_of_eq hnew
  · rw [if_neg hother] at hcurrent
    exact h.stamps other current hcurrent

/-- What a callback of one control does to the drafts. -/
theorem put_drafted {handle' : HandleInner} {edit' : TextEdit}
    (htarget : edit'.target = (session.edits control).target)
    (hversion : handle'.lifecycleVersion = session.handle.lifecycleVersion) :
    (session.put control (handle', edit')).drafted =
      { handle := handle'
        targets := session.drafted.targets
        rendered := Function.update session.drafted.rendered control edit'.canonical
        drafts := Function.update session.drafted.drafts control (edit'.draft session.handle) } := by
  ext1
  · rfl
  · funext other
    simp only [drafted, put_edits]
    by_cases hother : other = control
    · rw [if_pos hother, hother, htarget]
    · rw [if_neg hother]
  · funext other
    simp only [drafted, put_edits, Function.update_apply]
    by_cases hother : other = control
    · rw [if_pos hother, if_pos hother]
    · rw [if_neg hother, if_neg hother]
  · funext other
    simp only [drafted, put_edits, Function.update_apply]
    show TextEdit.draft handle' _ = _
    rw [TextEdit.draft_version hversion]
    by_cases hother : other = control
    · rw [if_pos hother, if_pos hother]
    · rw [if_neg hother, if_neg hother]

/-! ## Refinement -/

theorem Timely.step (h : session.Timely) (event : SessionEvent ι) :
    (session.step label event).Timely := by
  cases event with
  | call call =>
    refine ⟨h.reachable.step call, fun control current hcurrent => ?_⟩
    have hstamp := h.stamps control current hcurrent
    have hlifecycle := HandleInner.call_lifecycle h.reachable call
    show current.lifecycle ≤ (session.handle.call call).1.lifecycleVersion
    split at hlifecycle
    · omega
    · omega
  | input control text =>
    simp only [Session.step]
    rw [TextEdit.input_draft]
    split
    · exact h.put (HandleInner.inputText_reachable h.reachable _ _)
        (HandleInner.inputText_lifecycle _ _) fun current hcurrent => .inl hcurrent
    · refine h.put h.reachable rfl fun current hcurrent => .inr ?_
      cases hcurrent
      rfl
  | compositionStart control =>
    refine h.put h.reachable rfl fun current hcurrent => .inr ?_
    cases hcurrent
    rfl
  | compositionEnd control =>
    simp only [Session.step]
    rw [TextEdit.finishComposition_draft]
    cases (session.edits control).draft session.handle with
    | none => exact h.put h.reachable rfl nofun
    | some text =>
      exact h.put (HandleInner.inputText_reachable h.reachable _ _)
        (HandleInner.inputText_lifecycle _ _) nofun
  | blur control =>
    simp only [Session.step, TextEdit.blur]
    rw [TextEdit.finishComposition_draft]
    cases (session.edits control).draft session.handle with
    | none =>
      exact h.put (HandleInner.blur_reachable h.reachable _) (HandleInner.blur_lifecycle _) nofun
    | some text =>
      exact h.put (HandleInner.blur_reachable (HandleInner.inputText_reachable h.reachable _ _) _)
        ((HandleInner.blur_lifecycle _).trans (HandleInner.inputText_lifecycle _ _)) nofun
  | render control =>
    refine h.put h.reachable rfl fun current hcurrent => .inl ?_
    unfold TextEdit.render at hcurrent
    dsimp only at hcurrent
    split at hcurrent
    · cases hcurrent
    · exact hcurrent

theorem timely_invariant : (sessionSystem ι label).Invariant Timely where
  init := by
    rintro session ⟨hhandle, hnone⟩
    refine ⟨hhandle, fun control current hcurrent => ?_⟩
    rw [hnone] at hcurrent
    cases hcurrent
  step := fun _ event h => h.step event

/-- One event does to the drafts what it should. -/
theorem drafted_step (h : session.Timely) (event : SessionEvent ι) :
    (session.step label event).drafted = session.drafted.step label event := by
  cases event with
  | call call =>
    have hlifecycle := HandleInner.call_lifecycle h.reachable call
    ext1
    · rfl
    · rfl
    · rfl
    · funext control
      show (session.edits control).draft (session.handle.call call).1 =
        (if .lifecycle ∈ (session.handle.call call).2 then fun _ => none
          else session.drafted.drafts) control
      split
      · rename_i hwritten
        rw [if_pos hwritten] at hlifecycle
        cases hcomposition : (session.edits control).composition with
        | none => exact TextEdit.draft_none hcomposition
        | some current =>
          have hstamp := h.stamps control current hcomposition
          rw [TextEdit.draft_some hcomposition, if_neg (by omega)]
      · rename_i hunwritten
        rw [if_neg hunwritten] at hlifecycle
        exact TextEdit.draft_version hlifecycle
  | input control text =>
    have hdraft : session.drafted.drafts control =
      (session.edits control).draft session.handle := rfl
    simp only [Session.step, DraftSession.step]
    rw [TextEdit.input_draft]
    simp only [hdraft]
    split
    · rename_i hnone
      rw [put_drafted (by rfl) (by exact HandleInner.inputText_lifecycle _ _)]
      ext1
      · rfl
      · rfl
      · exact Function.update_eq_self ..
      · exact Function.update_eq_self ..
    · rw [put_drafted (by rfl) (by rfl)]
      ext1
      · rfl
      · rfl
      · exact Function.update_eq_self ..
      · simp only [DraftSession.drafting]
        rw [TextEdit.draft_some rfl, if_pos rfl]
  | compositionStart control =>
    simp only [Session.step, DraftSession.step]
    rw [put_drafted (by rfl) (by rfl), TextEdit.draft_some rfl, if_pos rfl]
    ext1
    · rfl
    · rfl
    · exact Function.update_eq_self ..
    · rfl
  | compositionEnd control =>
    have hdraft : session.drafted.drafts control =
      (session.edits control).draft session.handle := rfl
    simp only [Session.step, DraftSession.step, DraftSession.finish]
    rw [TextEdit.finishComposition_draft]
    simp only [hdraft]
    cases hcases : (session.edits control).draft session.handle with
    | none =>
      rw [put_drafted (by rfl) (by rfl), TextEdit.draft_none rfl]
      ext1
      · rfl
      · rfl
      · exact Function.update_eq_self ..
      · exact Function.update_eq_self_iff.mpr hcases.symm
    | some text =>
      rw [put_drafted (by rfl) (by exact HandleInner.inputText_lifecycle _ _),
        TextEdit.draft_none rfl]
      ext1
      · rfl
      · rfl
      · exact Function.update_eq_self ..
      · rfl
  | blur control =>
    have hdraft : session.drafted.drafts control =
      (session.edits control).draft session.handle := rfl
    simp only [Session.step, DraftSession.step, DraftSession.finish, TextEdit.blur]
    rw [TextEdit.finishComposition_draft]
    simp only [hdraft]
    cases hcases : (session.edits control).draft session.handle with
    | none =>
      rw [put_drafted (by rfl) (by exact HandleInner.blur_lifecycle _), TextEdit.draft_none rfl]
      ext1
      · rfl
      · rfl
      · exact Function.update_eq_self ..
      · exact Function.update_eq_self_iff.mpr hcases.symm
    | some text =>
      have hinput : (session.handle.inputText (session.edits control).target
          text).handle.lifecycleVersion = session.handle.lifecycleVersion :=
        HandleInner.inputText_lifecycle _ _
      rw [put_drafted (by rfl) (by exact (HandleInner.blur_lifecycle _).trans hinput),
        TextEdit.draft_none rfl]
      ext1
      · rfl
      · rfl
      · exact Function.update_eq_self ..
      · rfl
  | render control =>
    have hrendered : ((session.edits control).render label session.handle).canonical =
        session.drafted.read label control ∧
        ((session.edits control).render label session.handle).target =
          (session.edits control).target := by
      unfold TextEdit.render
      dsimp only
      split
      · exact ⟨rfl, rfl⟩
      · exact ⟨rfl, rfl⟩
    simp only [Session.step, DraftSession.step]
    rw [put_drafted hrendered.2 rfl, hrendered.1, TextEdit.render_draft]
    ext1
    · rfl
    · rfl
    · rfl
    · exact Function.update_eq_self ..

theorem drafted_run (h : session.Timely) (events : List (SessionEvent ι)) :
    ((sessionSystem ι label).run session events).drafted =
      (draftSystem ι label).run session.drafted events := by
  induction events generalizing session with
  | nil => rfl
  | cons event events ih =>
    rw [TransitionSystem.run_cons, TransitionSystem.run_cons]
    show _ = (draftSystem ι label).run (session.drafted.step label event) events
    rw [← drafted_step h event]
    exact ih (h.step event)

theorem drafted_reachable (h : (sessionSystem ι label).Reachable session) :
    (draftSystem ι label).Reachable session.drafted := by
  induction h with
  | init hinit => exact .init ⟨hinit.1, fun control => TextEdit.draft_none (hinit.2 control)⟩
  | step event h ih =>
    show (draftSystem ι label).Reachable (Session.step label _ event).drafted
    rw [drafted_step (timely_invariant.reachable h)]
    exact ih.step event

/-- To its user a session is one in which drafts carry no stamp and a new lifecycle takes them all
away, whatever happens in whatever order. -/
theorem session_refines (h : (sessionSystem ι label).Reachable session)
    (events : List (SessionEvent ι)) :
    (draftSystem ι label).Reachable session.drafted ∧
    ((sessionSystem ι label).run session events).drafted =
      (draftSystem ι label).run session.drafted events ∧
    ∀ control, (((sessionSystem ι label).run session events).edits control).value
        ((sessionSystem ι label).run session events).handle =
      ((draftSystem ι label).run session.drafted events).shown control := by
  have hrun : ((sessionSystem ι label).run session events).drafted =
      (draftSystem ι label).run session.drafted events :=
    drafted_run (timely_invariant.reachable h) events
  refine ⟨drafted_reachable h, hrun, fun control => ?_⟩
  rw [TextEdit.value_draft, ← hrun]
  rfl

/-- The appended item of a list, with one control mounted on it. -/
def sample : Session Unit where
  handle := handleSystem.run HandleInner.sample [HandleInner.sampleAppend]
  edits := fun _ => ⟨⟨0, 2, some ⟨0, 1⟩⟩, none, none⟩

/-- Two letters are composed while another item is appended. -/
def sampleComposing : List (SessionEvent Unit) :=
  [.input () "k", .call HandleInner.sampleAppend, .input () "ka"]

theorem sample_reachable : (sessionSystem Unit Value.text).Reachable sample :=
  .init ⟨HandleInner.sample_reachable.run [HandleInner.sampleAppend], fun _ => rfl⟩

theorem session_refines_sample : ((sessionSystem Unit Value.text).run sample
      (.compositionStart () :: sampleComposing)).drafted =
    (draftSystem Unit Value.text).run sample.drafted (.compositionStart () :: sampleComposing) :=
  (session_refines sample_reachable (.compositionStart () :: sampleComposing)).2.1

end Session

/-! ## A composition in a run -/

section Composing

variable {ι : Type} [DecidableEq ι]

/-- What an event types into a control. -/
def SessionEvent.inputs (control : ι) : SessionEvent ι → Option String
  | .input other text => if other = control then some text else none
  | _ => none

/-- Events that begin or end the composition of a control. -/
def SessionEvent.bounds (control : ι) : SessionEvent ι → Bool
  | .compositionStart other | .compositionEnd other | .blur other => other = control
  | _ => false

/-- The text of a composition after some events. -/
def composed (control : ι) (text : String) (events : List (SessionEvent ι)) : String :=
  (events.filterMap (·.inputs control)).getLast?.getD text

/-- The events that do not type into a control. -/
def elsewhere (control : ι) (events : List (SessionEvent ι)) : List (SessionEvent ι) :=
  events.filter fun event => (event.inputs control).isNone

theorem elsewhere_typed {control : ι} {text : String} {event : SessionEvent ι}
    (h : event.inputs control = some text) (events : List (SessionEvent ι)) :
    elsewhere control (event :: events) = elsewhere control events := by
  simp [elsewhere, h]

theorem elsewhere_other {control : ι} {event : SessionEvent ι} (h : event.inputs control = none)
    (events : List (SessionEvent ι)) :
    elsewhere control (event :: events) = event :: elsewhere control events := by
  simp [elsewhere, h]

theorem composed_cons (control : ι) (text : String) (event : SessionEvent ι)
    (events : List (SessionEvent ι)) : composed control text (event :: events) =
      composed control ((event.inputs control).getD text) events := by
  unfold composed
  cases h : event.inputs control with
  | none => simp [h]
  | some typed => simp [h, List.getLast?_cons]

namespace DraftSession

variable {label : Value → String} {session : DraftSession ι} {control other : ι} {text : String}
  {event : SessionEvent ι}

theorem finish_handle (h : handleSystem.Reachable session.handle) (control : ι) :
    handleSystem.Reachable (session.finish control).handle ∧
    (session.finish control).handle.lifecycleVersion = session.handle.lifecycleVersion := by
  unfold finish
  split
  · exact ⟨h, rfl⟩
  · exact ⟨HandleInner.inputText_reachable h _ _, HandleInner.inputText_lifecycle _ _⟩

variable (label) in
theorem step_handle (h : handleSystem.Reachable session.handle) (event : SessionEvent ι) :
    handleSystem.Reachable (session.step label event).handle ∧
    session.handle.lifecycleVersion ≤ (session.step label event).handle.lifecycleVersion := by
  cases event with
  | call call =>
    have hlifecycle := HandleInner.call_lifecycle h call
    refine ⟨h.step call, ?_⟩
    show session.handle.lifecycleVersion ≤ (session.handle.call call).1.lifecycleVersion
    split at hlifecycle
    · exact Nat.le_of_lt hlifecycle
    · exact Nat.le_of_eq hlifecycle.symm
  | input control text =>
    simp only [step]
    split
    · exact ⟨HandleInner.inputText_reachable h _ _,
        Nat.le_of_eq (HandleInner.inputText_lifecycle _ _).symm⟩
    · exact ⟨h, Nat.le_refl _⟩
  | compositionStart control => exact ⟨h, Nat.le_refl _⟩
  | compositionEnd control =>
    obtain ⟨hreach, hversion⟩ := finish_handle h control
    exact ⟨hreach, Nat.le_of_eq hversion.symm⟩
  | blur control =>
    obtain ⟨hreach, hversion⟩ := finish_handle h control
    exact ⟨HandleInner.blur_reachable hreach _,
      Nat.le_of_eq ((HandleInner.blur_lifecycle _).trans hversion).symm⟩
  | render control => exact ⟨h, Nat.le_refl _⟩

variable (label) in
theorem run_lifecycle (h : handleSystem.Reachable session.handle)
    (events : List (SessionEvent ι)) : session.handle.lifecycleVersion ≤
      ((draftSystem ι label).run session events).handle.lifecycleVersion := by
  induction events generalizing session with
  | nil => exact Nat.le_refl _
  | cons event events ih =>
    obtain ⟨hreach, hle⟩ := step_handle label h event
    exact Nat.le_trans hle (ih hreach)

theorem finish_drafting (hother : other ≠ control) :
    (session.drafting control text).finish other =
      (session.finish other).drafting control text := by
  have hsame : (session.drafting control text).drafts other = session.drafts other :=
    Function.update_of_ne hother ..
  unfold finish
  rw [hsame]
  split
  · rfl
  · simp only [drafting, commit]
    rw [Function.update_comm hother]

theorem finish_undrafted (h : session.drafts control = none) :
    (session.finish other).drafts control = none := by
  unfold finish
  split
  · exact h
  · simp only [Function.update_apply]
    split
    · rfl
    · exact h

/-- An event elsewhere leaves a draft alone, and does what it does without the draft. -/
theorem step_drafting (hbounds : event.bounds control = false)
    (hinputs : event.inputs control = none)
    (hquiet : ∀ call, event = .call call → .lifecycle ∉ (session.handle.call call).2) :
    (session.drafting control text).step label event =
      (session.step label event).drafting control text := by
  cases event with
  | call call =>
    have hcall := hquiet call rfl
    simp [step, drafting, hcall]
  | input other text' =>
    have hother : other ≠ control := by
      intro heq
      simp [SessionEvent.inputs, heq] at hinputs
    have hsame : (session.drafting control text).drafts other = session.drafts other :=
      Function.update_of_ne hother ..
    simp only [step]
    rw [hsame]
    split
    · rfl
    · simp only [drafting]
      rw [Function.update_comm hother]
  | compositionStart other =>
    have hother : other ≠ control := by simpa [SessionEvent.bounds] using hbounds
    simp only [step, drafting]
    rw [Function.update_comm hother]
    rfl
  | compositionEnd other =>
    have hother : other ≠ control := by simpa [SessionEvent.bounds] using hbounds
    exact finish_drafting hother
  | blur other =>
    have hother : other ≠ control := by simpa [SessionEvent.bounds] using hbounds
    simp only [step]
    rw [finish_drafting hother]
    rfl
  | render other => rfl

/-- Text typed into a draft replaces it. -/
theorem step_drafting_input {text' : String} (hinputs : event.inputs control = some text') :
    (session.drafting control text).step label event = session.drafting control text' := by
  cases event with
  | input other typed =>
    by_cases hother : other = control
    · simp only [SessionEvent.inputs, if_pos hother, Option.some.injEq] at hinputs
      subst hother hinputs
      simp [step, drafting]
    · simp [SessionEvent.inputs, hother] at hinputs
  | _ => cases hinputs

theorem run_drafting (h : handleSystem.Reachable session.handle) (events : List (SessionEvent ι))
    (hbounds : ∀ event ∈ events, event.bounds control = false)
    (hquiet : ((draftSystem ι label).run (session.drafting control text)
      events).handle.lifecycleVersion = session.handle.lifecycleVersion) :
    (draftSystem ι label).run (session.drafting control text) events =
      ((draftSystem ι label).run session (elsewhere control events)).drafting control
        (composed control text events) := by
  induction events generalizing session text with
  | nil => rfl
  | cons event events ih =>
    have hrest : ∀ event ∈ events, event.bounds control = false :=
      fun event hevent => hbounds event (List.mem_cons_of_mem _ hevent)
    rw [TransitionSystem.run_cons] at hquiet ⊢
    change ((draftSystem ι label).run ((session.drafting control text).step label event)
      events).handle.lifecycleVersion = _ at hquiet
    show (draftSystem ι label).run ((session.drafting control text).step label event) events = _
    cases hinputs : event.inputs control with
    | some text' =>
      rw [step_drafting_input hinputs] at hquiet ⊢
      rw [ih h hrest hquiet, elsewhere_typed hinputs, composed_cons, hinputs, Option.getD_some]
    | none =>
      obtain ⟨hreach, hle⟩ := step_handle label h event
      have hdrafting : handleSystem.Reachable (session.drafting control text).handle := h
      obtain ⟨hreach', hle'⟩ := step_handle label hdrafting event
      have hrun := run_lifecycle label hreach' events
      have hstep : (session.drafting control text).step label event =
          (session.step label event).drafting control text := by
        refine step_drafting (hbounds event List.mem_cons_self) hinputs fun call hcall hwritten => ?_
        subst hcall
        have hlifecycle := HandleInner.call_lifecycle h call
        rw [if_pos hwritten] at hlifecycle
        change (session.handle.call call).1.lifecycleVersion ≤ _ at hrun
        omega
      rw [hstep] at hquiet hrun ⊢
      change (session.step label event).handle.lifecycleVersion ≤ _ at hrun
      rw [ih hreach hrest (by omega), elsewhere_other hinputs, composed_cons, hinputs,
        Option.getD_none, TransitionSystem.run_cons]
      rfl

theorem step_undrafted (hbounds : event.bounds control = false)
    (h : session.drafts control = none) : (session.step label event).drafts control = none := by
  cases event with
  | call call =>
    simp only [step]
    split
    · rfl
    · exact h
  | input other text' =>
    simp only [step]
    split
    · exact h
    · rename_i hsome
      have hother : control ≠ other := by
        intro heq
        rw [heq, hsome] at h
        cases h
      exact (Function.update_of_ne hother ..).trans h
  | compositionStart other =>
    have hother : control ≠ other := by
      intro heq
      simp [SessionEvent.bounds, heq] at hbounds
    exact (Function.update_of_ne hother ..).trans h
  | compositionEnd other => exact finish_undrafted h
  | blur other => exact finish_undrafted h
  | render other => exact h

/-- The end of a composition is one input. -/
theorem finish_drafted (h : session.drafts control = none) :
    (session.drafting control text).finish control = session.commit control text := by
  have hsome : (session.drafting control text).drafts control = some text :=
    Function.update_self ..
  unfold finish
  rw [hsome]
  simp only [drafting, commit, Function.update_idem]
  rw [Function.update_eq_self_iff.mpr h.symm]

variable (label) in
theorem end_drafting (h : session.drafts control = none) :
    (session.drafting control text).step label (.compositionEnd control) =
      session.step label (.input control text) := by
  simp only [step, h]
  exact finish_drafted h

variable (label) in
theorem blur_drafting (h : session.drafts control = none) :
    (session.drafting control text).step label (.blur control) =
      (session.step label (.input control text)).step label (.blur control) := by
  have hnone : (session.commit control text).drafts control = none := h
  simp only [step, h]
  rw [finish_drafted h, finish, hnone]

variable (label) in
/-- A new lifecycle leaves nothing of a draft. -/
theorem call_drafting {call : HandleCall} (h : .lifecycle ∈ (session.handle.call call).2) :
    (session.drafting control text).step label (.call call) = session.step label (.call call) := by
  have hdrafting : .lifecycle ∈ ((session.drafting control text).handle.call call).2 := h
  simp only [step]
  rw [if_pos h, if_pos hdrafting]
  rfl

theorem run_undrafted (h : session.drafts control = none) (events : List (SessionEvent ι))
    (hbounds : ∀ event ∈ events, event.bounds control = false) :
    ((draftSystem ι label).run session events).drafts control = none := by
  induction events generalizing session with
  | nil => exact h
  | cons event events ih =>
    exact ih (step_undrafted (hbounds event List.mem_cons_self) h)
      fun event hevent => hbounds event (List.mem_cons_of_mem _ hevent)

end DraftSession

namespace Session

variable {label : Value → String} {session : Session ι} {control : ι}

/-- While a composition goes on, everything else goes on without it. -/
theorem composing_run (h : session.Timely) (events : List (SessionEvent ι))
    (hbounds : ∀ event ∈ events, event.bounds control = false)
    (hquiet : ((sessionSystem ι label).run session
      (.compositionStart control :: events)).handle.lifecycleVersion =
        session.handle.lifecycleVersion) :
    (draftSystem ι label).run session.drafted (.compositionStart control :: events) =
      ((draftSystem ι label).run session.drafted (elsewhere control events)).drafting control
        (composed control ((session.edits control).canonicalText label session.handle)
          events) := by
  have hhandle : ((sessionSystem ι label).run session (.compositionStart control :: events)).handle =
      ((draftSystem ι label).run session.drafted (.compositionStart control :: events)).handle :=
    congrArg DraftSession.handle (drafted_run h _)
  rw [hhandle] at hquiet
  exact DraftSession.run_drafting h.reachable events hbounds hquiet

/-- A composition that ends in the lifecycle it began in is as good as one input of its last text
where it ends, whatever else happens meanwhile. -/
theorem composition_commits_once (h : (sessionSystem ι label).Reachable session)
    (hdraft : session.drafted.drafts control = none) (events : List (SessionEvent ι))
    (hbounds : ∀ event ∈ events, event.bounds control = false)
    (hquiet : ((sessionSystem ι label).run session
      (.compositionStart control :: events)).handle.lifecycleVersion =
        session.handle.lifecycleVersion) (more : List (SessionEvent ι)) :
    let text := composed control ((session.edits control).canonicalText label session.handle) events
    (((sessionSystem ι label).run session
        (.compositionStart control :: events ++ .compositionEnd control :: more)).drafted =
      ((sessionSystem ι label).run session
        (elsewhere control events ++ .input control text :: more)).drafted) ∧
    ((sessionSystem ι label).run session
        (.compositionStart control :: events ++ .blur control :: more)).drafted =
      ((sessionSystem ι label).run session
        (elsewhere control events ++ .input control text :: .blur control :: more)).drafted := by
  intro text
  have htimely := timely_invariant.reachable h
  have hcomposing := composing_run htimely events hbounds hquiet
  have hnone : ((draftSystem ι label).run session.drafted
      (elsewhere control events)).drafts control = none :=
    DraftSession.run_undrafted hdraft _ fun event hevent =>
      hbounds event (List.mem_of_mem_filter hevent)
  constructor
  · rw [drafted_run htimely, drafted_run htimely, TransitionSystem.run_append, hcomposing,
      TransitionSystem.run_append, TransitionSystem.run_cons, TransitionSystem.run_cons]
    exact congrArg ((draftSystem ι label).run · more) (DraftSession.end_drafting label hnone)
  · rw [drafted_run htimely, drafted_run htimely, TransitionSystem.run_append, hcomposing,
      TransitionSystem.run_append, TransitionSystem.run_cons, TransitionSystem.run_cons,
      TransitionSystem.run_cons]
    exact congrArg ((draftSystem ι label).run · more) (DraftSession.blur_drafting label hnone)

/-- A composition that meets a new lifecycle is as good as none: nothing that was typed into it
reaches the form or is seen again. -/
theorem composition_abandoned (h : (sessionSystem ι label).Reachable session)
    (events : List (SessionEvent ι)) (hbounds : ∀ event ∈ events, event.bounds control = false)
    (hquiet : ((sessionSystem ι label).run session
      (.compositionStart control :: events)).handle.lifecycleVersion =
        session.handle.lifecycleVersion) (call : HandleCall)
    (hcall : .lifecycle ∈ (((sessionSystem ι label).run session
      (.compositionStart control :: events)).handle.call call).2) (more : List (SessionEvent ι)) :
    ((sessionSystem ι label).run session
        (.compositionStart control :: events ++ .call call :: more)).drafted =
      ((sessionSystem ι label).run session
        (elsewhere control events ++ .call call :: more)).drafted := by
  have htimely := timely_invariant.reachable h
  have hcomposing := composing_run htimely events hbounds hquiet
  have hwritten : .lifecycle ∈ (((draftSystem ι label).run session.drafted
      (.compositionStart control :: events)).handle.call call).2 := by
    rw [← drafted_run htimely]
    exact hcall
  rw [hcomposing] at hwritten
  rw [drafted_run htimely, drafted_run htimely, TransitionSystem.run_append, hcomposing,
    TransitionSystem.run_append, TransitionSystem.run_cons, TransitionSystem.run_cons]
  exact congrArg ((draftSystem ι label).run · more) (DraftSession.call_drafting label hwritten)

theorem composition_commits_once_sample : ((sessionSystem Unit Value.text).run sample
      (.compositionStart () :: sampleComposing ++ [.compositionEnd ()])).drafted =
    ((sessionSystem Unit Value.text).run sample
      (elsewhere () sampleComposing ++ [.input () "ka"])).drafted :=
  (composition_commits_once sample_reachable rfl sampleComposing (by decide) rfl []).1

theorem composition_abandoned_sample : ((sessionSystem Unit Value.text).run sample
      (.compositionStart () :: sampleComposing ++
        [.call HandleInner.sampleReset, .compositionEnd ()])).drafted =
    ((sessionSystem Unit Value.text).run sample
      (elsewhere () sampleComposing ++
        [.call HandleInner.sampleReset, .compositionEnd ()])).drafted :=
  composition_abandoned sample_reachable sampleComposing (by decide) rfl HandleInner.sampleReset
    (by decide) [.compositionEnd ()]

end Session

end Composing

end Schemaform.Dioxus
