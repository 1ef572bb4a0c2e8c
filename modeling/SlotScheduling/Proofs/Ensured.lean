import SlotScheduling.Proofs.Failures
import SlotScheduling.Proofs.Steps

/-!
# What ends well or says why not

A computation without faults ends well or with an error of the domain.  What holds where it ends
well is carried from one part of it to the next.
-/

namespace SlotScheduling

variable {σ τ α β : Type}

/-- The failure is an error of the domain, not a broken promise of the caller. -/
def Failure.IsError (failure : Failure) : Prop := ∃ cause, failure = .error cause

open Failure (IsError)

/-! ## Computations -/

namespace Checked

variable {work : Checked α} {post : α → Prop}

theorem failsAs_broken (contract : Contract) (detail : String) :
    (broken contract detail : Checked α).FailsAs IsError := by
  rintro _ ⟨⟩
  exact ⟨_, rfl⟩

theorem failsAs_forM {kind : Failure → Prop} {list : List β} {work : β → Checked PUnit}
    (h : ∀ item ∈ list, (work item).FailsAs kind) : (list.forM work).FailsAs kind := by
  induction list with
  | nil => exact failsAs_ok _
  | cons item rest ih =>
      obtain ⟨hfirst, hrest⟩ := List.forall_mem_cons.mp h
      exact hfirst.bind fun _ _ => ih hrest

/-- The computation ends well, with a value that the condition holds of, or with an error. -/
def Ensures (post : α → Prop) (work : Checked α) : Prop :=
  match work with
  | .ok value => post value
  | .error failure => failure.IsError

theorem ensures_of_exists (h : ∃ value, work = .ok value ∧ post value) : work.Ensures post := by
  obtain ⟨value, rfl, hpost⟩ := h
  exact hpost

theorem ensures_of_failsAs (h : work.FailsAs IsError)
    (hpost : ∀ value, work = .ok value → post value) : work.Ensures post := by
  cases hrun : work with
  | ok value => exact hpost value hrun
  | error failure => exact h failure hrun

end Checked

/-! ## Steps -/

namespace Step

variable {step : Step σ α} {post post' : α → σ → Prop} {now : Journaled σ}

/-- The step ends well, with a value and in a state that the condition holds of, or with an
error. -/
def Ensures (post : α → σ → Prop) (step : Step σ α) (now : Journaled σ) : Prop :=
  match step now with
  | .ok value last => post value last.state
  | .error failure _ => failure.IsError

theorem ensures_iff : step.Ensures post now ↔
    (∃ value last, step now = .ok value last ∧ post value last.state) ∨
      ∃ cause last, step now = .error (.error cause) last := by
  unfold Ensures
  cases hrun : step now with
  | ok value last =>
      refine ⟨fun h => .inl ⟨value, last, rfl, h⟩, ?_⟩
      rintro (⟨_, _, ⟨⟩, h⟩ | ⟨_, _, ⟨⟩⟩)
      exact h
  | error failure last =>
      refine ⟨fun ⟨cause, h⟩ => .inr ⟨cause, last, by rw [h]⟩, ?_⟩
      rintro (⟨_, _, ⟨⟩, _⟩ | ⟨cause, _, ⟨⟩⟩)
      exact ⟨cause, rfl⟩

theorem ensures_of_eq_ok {value : α} {last : Journaled σ} (h : step now = .ok value last)
    (hpost : post value last.state) : step.Ensures post now := by
  unfold Ensures
  rw [h]
  exact hpost

theorem Ensures.of_eq_ok {value : α} {last : Journaled σ} (h : step.Ensures post now)
    (hrun : step now = .ok value last) : post value last.state := by
  rw [Ensures, hrun] at h
  exact h

theorem ensures_of_failsAs (h : step.FailsAs IsError now)
    (hpost : ∀ value last, step now = .ok value last → post value last.state) :
    step.Ensures post now := by
  unfold Ensures
  cases hrun : step now with
  | ok value last => exact hpost value last hrun
  | error failure last => exact h failure last hrun

theorem Ensures.mono (h : step.Ensures post now)
    (hpost : ∀ value state, post value state → post' value state) : step.Ensures post' now := by
  unfold Ensures at h ⊢
  cases hrun : step now with
  | ok value last =>
      rw [hrun] at h
      exact hpost value _ h
  | error failure last =>
      rw [hrun] at h
      exact h

theorem Ensures.bind {next : α → Step σ β} {post' : β → σ → Prop} (h : step.Ensures post now)
    (hnext : ∀ value middle, step now = .ok value middle → post value middle.state →
      (next value).Ensures post' middle) :
    (step >>= next).Ensures post' now := by
  unfold Ensures at h ⊢
  show match EStateM.bind step next now with
    | .ok value last => post' value last.state
    | .error failure _ => failure.IsError
  unfold EStateM.bind
  cases hrun : step now with
  | ok value middle =>
      rw [hrun] at h
      exact hnext value middle hrun h
  | error failure middle =>
      rw [hrun] at h
      exact h

theorem Ensures.map {f : α → β} {post' : β → σ → Prop}
    (h : step.Ensures (fun value state => post' (f value) state) now) :
    (f <$> step).Ensures post' now := by
  unfold Ensures at h ⊢
  show match EStateM.map f step now with
    | .ok value last => post' value last.state
    | .error failure _ => failure.IsError
  unfold EStateM.map
  cases hrun : step now with
  | ok value last =>
      rw [hrun] at h
      exact h
  | error failure last =>
      rw [hrun] at h
      exact h

theorem ensures_bind_of_eq_ok {next : α → Step σ β} {post : β → σ → Prop} {value : α}
    {middle : Journaled σ} (h : step now = .ok value middle) :
    (step >>= next).Ensures post now ↔ (next value).Ensures post middle := by
  rw [Ensures, bind_of_eq_ok h]
  rfl

theorem ensures_lift_bind_of_eq_ok {work : Checked β} {next : β → Step σ α} {value : β}
    (h : work = .ok value) :
    (liftM work >>= next).Ensures post now ↔ (next value).Ensures post now :=
  ensures_bind_of_eq_ok (lift_eq_ok.mpr ⟨h, rfl⟩)

theorem ensures_updateChecked_bind_of_eq_ok {change : σ → Checked σ} {next : PUnit → Step σ α}
    {state : σ} (h : change now.state = .ok state) :
    (updateChecked change >>= next).Ensures post now ↔
      (next ⟨⟩).Ensures post ⟨state, now.journal⟩ :=
  ensures_bind_of_eq_ok (updateChecked_eq_ok.mpr ⟨state, h, rfl⟩)

theorem ensures_pure {value : α} (h : post value now.state) :
    (pure value : Step σ α).Ensures post now := h

theorem ensures_current_bind {next : σ → Step σ α} (h : (next now.state).Ensures post now) :
    (current >>= next).Ensures post now := h

theorem ensures_update_bind {change : σ → σ} {next : PUnit → Step σ α}
    (h : (next ⟨⟩).Ensures post ⟨change now.state, now.journal⟩) :
    (update change >>= next).Ensures post now := h

theorem ensures_note {level : Level} {text : Unit → String} {post : PUnit → σ → Prop}
    (h : post ⟨⟩ now.state) : (note level text).Ensures post now := h

theorem ensures_note_bind {level : Level} {text : Unit → String} {next : PUnit → Step σ α}
    (h : ∀ journal, (next ⟨⟩).Ensures post ⟨now.state, journal⟩) :
    (note level text >>= next).Ensures post now := h _

theorem ensures_lift_bind {work : Checked β} {next : β → Step σ α} {middle : β → Prop}
    (hwork : work.Ensures middle) (hnext : ∀ value, middle value → (next value).Ensures post now) :
    (liftM work >>= next).Ensures post now := by
  cases work with
  | ok value => exact hnext value hwork
  | error failure => exact hwork

/-- Outside of a search, a system without a solution is an error all the same. -/
theorem ensures_orMalformed_bind {work : Checked β} {next : β → Step σ α} {reason : String}
    (h : work = .error (.error (.infeasible reason))) :
    (liftM work.orMalformed >>= next).Ensures post now := by
  rw [h]
  exact ⟨_, rfl⟩

theorem ensures_updateChecked {change : σ → Checked σ} {post : PUnit → σ → Prop}
    (h : (change now.state).Ensures (post ⟨⟩)) : (updateChecked change).Ensures post now := by
  unfold Ensures updateChecked
  cases hrun : change now.state with
  | ok state =>
      rw [hrun] at h
      exact h
  | error failure =>
      rw [hrun] at h
      exact h

theorem Ensures.focus {part : σ → τ} {back : σ → τ → σ} {work : Step τ α}
    {inner : α → τ → Prop} (h : work.Ensures inner ⟨part now.state, now.journal⟩)
    (hback : ∀ value state, inner value state → post value (back now.state state)) :
    (focus part back work).Ensures post now := by
  unfold Ensures Step.focus at *
  cases hrun : work ⟨part now.state, now.journal⟩ with
  | ok value last =>
      rw [hrun] at h
      exact hback value _ h
  | error failure last =>
      rw [hrun] at h
      exact h

theorem Ensures.apart {start : τ} {work : Step τ α} {post : α × τ → σ → Prop}
    {inner : α → τ → Prop} (h : work.Ensures inner ⟨start, now.journal⟩)
    (hout : ∀ value state, inner value state → post (value, state) now.state) :
    (apart start work).Ensures post now := by
  unfold Ensures Step.apart at *
  cases hrun : work ⟨start, now.journal⟩ with
  | ok value last =>
      rw [hrun] at h
      exact hout value _ h
  | error failure last =>
      rw [hrun] at h
      exact h

end Step

end SlotScheduling
