import SlotScheduling.Pipeline.Search
import SlotScheduling.Proofs.Steps

/-!
# Failures that nobody answers

A search answers an error by relaxing a bound, and its caller answers that a search gave up by
scheduling straight-line code.  A broken contract and a fault have no such answer.  A restart fails
in no other way, nor does anything that follows once a search has found its bounds.
-/

namespace SlotScheduling

variable {σ τ α β : Type}

/-- No caller can answer the failure by relaxing a bound. -/
def Failure.IsFinal : Failure → Prop
  | .error cause => cause.isRecoverable = false
  | .fault _ => True

/-- A number left its range. -/
def Failure.IsOverflow (failure : Failure) : Prop := failure = .fault .overflow

/-- That a search gave up is answered by scheduling straight-line code. -/
theorem Failure.not_isFinal_searchExhausted (block interval criticalPath : Nat) :
    ¬IsFinal (.error (.searchExhausted block interval criticalPath)) := by
  simp [IsFinal, SchedulingError.isRecoverable, SchedulingError.contract?]

/-! ## Computations -/

namespace Checked

theorem bind_eq_error {first : Checked α} {next : α → Checked β} {failure : Failure} :
    (first >>= next) = .error failure ↔ first = .error failure ∨
      ∃ value, first = .ok value ∧ next value = .error failure := by
  cases first <;> simp [bind, Except.bind]

theorem map_eq_error {f : α → β} {work : Checked α} {failure : Failure} :
    (f <$> work) = .error failure ↔ work = .error failure := by
  cases work <;> simp [Functor.map, Except.map]

/-- If the computation fails, it is in a way of this kind. -/
def FailsAs (kind : Failure → Prop) (work : Checked α) : Prop :=
  ∀ failure, work = .error failure → kind failure

section

variable {kind kind' : Failure → Prop} {work : Checked α}

theorem FailsAs.mono (h : work.FailsAs kind) (hkind : ∀ failure, kind failure → kind' failure) :
    work.FailsAs kind' :=
  fun failure hrun => hkind failure (h failure hrun)

theorem failsAs_of_exists (h : ∃ value, work = .ok value) : work.FailsAs kind := by
  rintro failure hrun
  obtain ⟨value, hvalue⟩ := h
  rw [hvalue] at hrun
  cases hrun

theorem failsAs_ok (value : α) : FailsAs kind (.ok value) := fun _ h => nomatch h

/-- What comes next may rely on where its value comes from. -/
theorem FailsAs.bind {next : α → Checked β} (hwork : work.FailsAs kind)
    (hnext : ∀ value, work = .ok value → (next value).FailsAs kind) :
    (work >>= next).FailsAs kind := by
  intro failure h
  rcases bind_eq_error.mp h with hfail | ⟨value, hvalue, hfail⟩
  · exact hwork failure hfail
  · exact hnext value hvalue failure hfail

theorem FailsAs.map {f : α → β} (h : work.FailsAs kind) : (f <$> work).FailsAs kind :=
  fun failure hrun => h failure (map_eq_error.mp hrun)

/-- A loop fails as its rounds do where an invariant of theirs holds. -/
theorem failsAs_foldlM {P : α → Prop} {list : List β} {round : α → β → Checked α}
    (hround : ∀ item ∈ list, ∀ value, P value →
      (round value item).FailsAs kind ∧ ∀ next, round value item = .ok next → P next)
    {start : α} (hstart : P start) : (list.foldlM round start).FailsAs kind := by
  induction list generalizing start with
  | nil => exact failsAs_ok start
  | cons item rest ih =>
      obtain ⟨hfirst, hkept⟩ := hround item List.mem_cons_self start hstart
      rw [List.foldlM_cons]
      exact hfirst.bind fun next hnext =>
        ih (fun other hmem => hround other (List.mem_cons_of_mem item hmem)) (hkept next hnext)

theorem failsAs_filterMapM {list : List β} {f : β → Checked (Option α)}
    (h : ∀ item ∈ list, (f item).FailsAs kind) : (list.filterMapM f).FailsAs kind := by
  induction list with
  | nil => exact failsAs_ok []
  | cons item rest ih =>
      obtain ⟨hfirst, hrest⟩ := List.forall_mem_cons.mp h
      rw [List.filterMapM_cons]
      refine hfirst.bind fun found _ => ?_
      cases found with
      | none => exact ih hrest
      | some value => exact (ih hrest).bind fun values _ => failsAs_ok (value :: values)

end

/-- The computation fails only in ways that no caller can answer. -/
def FailsFinally (work : Checked α) : Prop :=
  ∀ failure, work = .error failure → failure.IsFinal

theorem failsFinally_ok (value : α) : FailsFinally (.ok value) := fun _ h => nomatch h

theorem failsFinally_faulty (cause : Fault) : FailsFinally (faulty cause : Checked α) := by
  rintro _ ⟨⟩
  trivial

theorem FailsFinally.bind {first : Checked α} {next : α → Checked β} (hfirst : first.FailsFinally)
    (hnext : ∀ value, (next value).FailsFinally) : (first >>= next).FailsFinally :=
  FailsAs.bind hfirst fun value _ => hnext value

theorem FailsFinally.map {f : α → β} {work : Checked α} (h : work.FailsFinally) :
    (f <$> work).FailsFinally :=
  FailsAs.map h

theorem failsFinally_foldlM {list : List β} {round : α → β → Checked α}
    (h : ∀ value item, (round value item).FailsFinally) (start : α) :
    (list.foldlM round start).FailsFinally :=
  failsAs_foldlM (P := fun _ => True)
    (fun item _ value _ => ⟨h value item, fun _ _ => trivial⟩) trivial

theorem failsFinally_mapM {list : List β} {work : β → Checked α}
    (h : ∀ item, (work item).FailsFinally) : (list.mapM work).FailsFinally := by
  induction list with
  | nil => exact failsFinally_ok []
  | cons item rest ih =>
      rw [List.mapM_cons]
      exact (h item).bind fun value => ih.bind fun values => failsFinally_ok (value :: values)

theorem failsFinally_filterM {list : List α} {test : α → Checked Bool}
    (h : ∀ item, (test item).FailsFinally) : (list.filterM test).FailsFinally := by
  have hfilter : ∀ list found, (List.filterAuxM test list found).FailsFinally := by
    intro list
    induction list with
    | nil => exact fun found => failsFinally_ok found
    | cons item rest ih => exact fun found => (h item).bind fun _ => ih _
  exact (hfilter list []).bind fun found => failsFinally_ok found.reverse

end Checked

open Checked

theorem Checked.failsAs_overflow : (faulty .overflow : Checked α).FailsAs Failure.IsOverflow := by
  rintro _ ⟨⟩
  rfl

theorem Word.failsAs_check (n : Nat) : (Word.check n).FailsAs Failure.IsOverflow := by
  unfold Word.check
  split
  · exact failsAs_ok n
  · exact failsAs_overflow

theorem Word.failsAs_sub (a b : Nat) : (Word.sub a b).FailsAs Failure.IsOverflow := by
  unfold Word.sub
  split
  · exact failsAs_ok _
  · exact failsAs_overflow

theorem Word.failsAs_sum (terms : List Nat) : (Word.sum terms).FailsAs Failure.IsOverflow :=
  failsAs_foldlM (P := fun _ => True)
    (fun _ _ _ _ => ⟨failsAs_check _, fun _ _ => trivial⟩) trivial

theorem Offset.failsAs_check (x : Int) : (Offset.check x).FailsAs Failure.IsOverflow := by
  unfold Offset.check
  split
  · exact failsAs_ok x
  · exact failsAs_overflow

theorem Failure.IsOverflow.isFinal {failure : Failure} (h : failure.IsOverflow) :
    failure.IsFinal := by
  subst h
  trivial

theorem Word.failsFinally_check (n : Nat) : (Word.check n).FailsFinally :=
  (failsAs_check n).mono fun _ h => h.isFinal

theorem Word.failsFinally_sub (a b : Nat) : (Word.sub a b).FailsFinally :=
  (failsAs_sub a b).mono fun _ h => h.isFinal

namespace Graph

variable (g : Graph)

theorem failsFinally_unit (id : UnitId) : (g.unit id).FailsFinally := by
  unfold unit
  split
  · exact failsFinally_ok _
  · exact failsFinally_faulty _

theorem failsFinally_changeUnit (id : UnitId) (change : ScheduleUnit → ScheduleUnit) :
    (g.changeUnit id change).FailsFinally := by
  unfold changeUnit
  split
  · exact failsFinally_ok _
  · exact failsFinally_faulty _

theorem failsFinally_startSlot (block : BlockId) : (g.startSlot block).FailsFinally := by
  unfold startSlot
  split
  · exact failsFinally_ok none
  · exact (g.failsFinally_unit _).bind fun unit => failsFinally_ok unit.slot

theorem failsFinally_endSlot (block : BlockId) : (g.endSlot block).FailsFinally :=
  (failsFinally_mapM g.failsFinally_unit).bind fun _ => failsFinally_ok _

theorem failsFinally_totalSlot (block : BlockId) : (g.totalSlot block).FailsFinally := by
  unfold totalSlot
  refine (g.failsFinally_endSlot block).bind fun last => ?_
  refine (g.failsFinally_startSlot block).bind fun first => ?_
  split
  · exact (Word.failsFinally_sub _ _).map
  · exact failsFinally_ok none

theorem failsFinally_clearControl : g.clearControl.FailsFinally :=
  (failsFinally_foldlM (fun h id => h.failsFinally_changeUnit id _) g).bind fun h =>
    h.failsFinally_changeUnit _ _

theorem failsFinally_widenExit (interval : Nat) : (g.widenExit interval).FailsFinally := by
  unfold widenExit
  split
  · exact failsFinally_ok g
  next exit _ =>
    refine (g.failsFinally_unit exit).bind fun unit => ?_
    refine FailsFinally.bind (failsFinally_filterM fun source => ?_) fun moves => ?_
    · exact (g.failsFinally_unit source).bind fun producer => failsFinally_ok producer.phi
    · exact failsFinally_foldlM (fun h _ => h.failsFinally_changeUnit exit _) g

end Graph

/-! ## Steps -/

namespace Step

variable {now last : Journaled σ} {failure : Failure}

theorem lift_eq_error {work : Checked α} :
    (liftM work : Step σ α) now = .error failure last ↔ work = .error failure ∧ last = now := by
  show ofChecked work now = _ ↔ _
  unfold ofChecked
  cases work <;> simp [eq_comm]

theorem updateChecked_eq_error {change : σ → Checked σ} :
    updateChecked change now = .error failure last ↔
      change now.state = .error failure ∧ last = now := by
  unfold updateChecked
  cases change now.state <;> simp [eq_comm]

theorem bind_eq_error {first : Step σ α} {next : α → Step σ β} :
    (first >>= next) now = .error failure last ↔ first now = .error failure last ∨
      ∃ value middle, first now = .ok value middle ∧ next value middle = .error failure last := by
  show EStateM.bind first next now = _ ↔ _
  unfold EStateM.bind
  cases first now <;> simp [and_assoc]

theorem map_eq_error {f : α → β} {work : Step σ α} :
    (f <$> work) now = .error failure last ↔ work now = .error failure last := by
  show EStateM.map f work now = _ ↔ _
  unfold EStateM.map
  cases work now <;> simp

theorem focus_eq_error {part : σ → τ} {back : σ → τ → σ} {work : Step τ α} :
    focus part back work now = .error failure last ↔
      ∃ inner, work ⟨part now.state, now.journal⟩ = .error failure inner ∧
        last = ⟨back now.state inner.state, inner.journal⟩ := by
  unfold focus
  cases work ⟨part now.state, now.journal⟩ <;> simp [eq_comm, and_assoc]

/-- If the step fails from here, it is in a way of this kind. -/
def FailsAs (kind : Failure → Prop) (step : Step σ α) (now : Journaled σ) : Prop :=
  ∀ failure last, step now = .error failure last → kind failure

section

variable {kind kind' : Failure → Prop} {step : Step σ α}

theorem FailsAs.mono (h : step.FailsAs kind now)
    (hkind : ∀ failure, kind failure → kind' failure) : step.FailsAs kind' now :=
  fun failure last hrun => hkind failure (h failure last hrun)

theorem failsAs_of_eq_ok {value : α} (h : step now = .ok value last) : step.FailsAs kind now := by
  intro failure last' hrun
  rw [h] at hrun
  cases hrun

theorem failsAs_pure (value : α) : (pure value : Step σ α).FailsAs kind now :=
  fun _ _ h => nomatch h

theorem failsAs_fail {cause : SchedulingError} (h : kind (.error cause)) :
    (fail cause : Step σ α).FailsAs kind now := by
  rintro _ _ ⟨⟩
  exact h

theorem failsAs_note (level : Level) (text : Unit → String) :
    (note level text : Step σ PUnit).FailsAs kind now :=
  fun _ _ h => nomatch h

theorem failsAs_update (change : σ → σ) : (update change).FailsAs kind now :=
  fun _ _ h => nomatch h

theorem failsAs_current_bind {next : σ → Step σ α} (h : (next now.state).FailsAs kind now) :
    (current >>= next).FailsAs kind now := h

theorem failsAs_lift {work : Checked α} (h : work.FailsAs kind) :
    (liftM work : Step σ α).FailsAs kind now :=
  fun failure _ hrun => h failure (lift_eq_error.mp hrun).1

theorem failsAs_updateChecked {change : σ → Checked σ} (h : (change now.state).FailsAs kind) :
    (updateChecked change).FailsAs kind now :=
  fun failure _ hrun => h failure (updateChecked_eq_error.mp hrun).1

/-- What comes next may rely on where its value comes from. -/
theorem FailsAs.bind {next : α → Step σ β} (hstep : step.FailsAs kind now)
    (hnext : ∀ value middle, step now = .ok value middle → (next value).FailsAs kind middle) :
    (step >>= next).FailsAs kind now := by
  intro failure last h
  rcases bind_eq_error.mp h with hfail | ⟨value, middle, hrun, hfail⟩
  · exact hstep failure last hfail
  · exact hnext value middle hrun failure last hfail

theorem failsAs_lift_bind {work : Checked α} {next : α → Step σ β} (hwork : work.FailsAs kind)
    (hnext : ∀ value, work = .ok value → (next value).FailsAs kind now) :
    (liftM work >>= next).FailsAs kind now := by
  refine (failsAs_lift hwork).bind fun value middle hrun => ?_
  obtain ⟨hvalue, rfl⟩ := lift_eq_ok.mp hrun
  exact hnext value hvalue

theorem FailsAs.map {f : α → β} (h : step.FailsAs kind now) : (f <$> step).FailsAs kind now :=
  fun failure last hrun => h failure last (map_eq_error.mp hrun)

theorem failsAs_foldlM {list : List β} {round : α → β → Step σ α}
    (h : ∀ item ∈ list, ∀ value now, (round value item).FailsAs kind now) (start : α) :
    (list.foldlM round start).FailsAs kind now := by
  induction list generalizing start now with
  | nil => exact failsAs_pure start
  | cons item rest ih =>
      obtain ⟨hfirst, hrest⟩ := List.forall_mem_cons.mp h
      rw [List.foldlM_cons]
      exact (hfirst start now).bind fun value middle _ => ih hrest value

theorem FailsAs.focus {part : σ → τ} {back : σ → τ → σ} {work : Step τ α}
    (h : work.FailsAs kind ⟨part now.state, now.journal⟩) :
    (focus part back work).FailsAs kind now := by
  intro failure last hrun
  obtain ⟨inner, hinner, _⟩ := focus_eq_error.mp hrun
  exact h failure inner hinner

end

/-- The step fails only in ways that no caller can answer. -/
def FailsFinally (step : Step σ α) : Prop :=
  ∀ now failure last, step now = .error failure last → failure.IsFinal

theorem failsFinally_pure (value : α) : (pure value : Step σ α).FailsFinally :=
  fun _ _ _ h => nomatch h

theorem failsFinally_fail (contract : Contract) (detail : String) :
    (fail (.broken contract detail) : Step σ α).FailsFinally := by
  rintro _ _ _ ⟨⟩
  rfl

theorem failsFinally_fail_bind (contract : Contract) (detail : String) (next : β → Step σ α) :
    (fail (.broken contract detail) >>= next).FailsFinally := by
  rintro _ _ _ ⟨⟩
  rfl

theorem failsFinally_lift {work : Checked α} (h : work.FailsFinally) :
    (liftM work : Step σ α).FailsFinally :=
  fun _ => failsAs_lift h

theorem failsFinally_note (level : Level) (text : Unit → String) :
    (note level text : Step σ PUnit).FailsFinally :=
  fun _ _ _ h => nomatch h

theorem failsFinally_records (level : Level) : (records level : Step σ Bool).FailsFinally :=
  fun _ _ _ h => nomatch h

theorem failsFinally_update (change : σ → σ) : (update change).FailsFinally :=
  fun _ _ _ h => nomatch h

theorem failsFinally_updateChecked {change : σ → Checked σ}
    (h : ∀ state, (change state).FailsFinally) : (updateChecked change).FailsFinally :=
  fun now => failsAs_updateChecked (h now.state)

theorem FailsFinally.bind {first : Step σ α} {next : α → Step σ β} (hfirst : first.FailsFinally)
    (hnext : ∀ value, (next value).FailsFinally) : (first >>= next).FailsFinally :=
  fun now => FailsAs.bind (hfirst now) fun value middle _ => hnext value middle

theorem FailsFinally.map {f : α → β} {work : Step σ α} (h : work.FailsFinally) :
    (f <$> work).FailsFinally :=
  fun now => FailsAs.map (h now)

theorem failsFinally_current_bind {next : σ → Step σ α}
    (h : ∀ state, (next state).FailsFinally) : (current >>= next).FailsFinally :=
  fun now => h now.state now

theorem failsFinally_ite {condition : Prop} [Decidable condition] {yes no : Step σ α}
    (hyes : yes.FailsFinally) (hno : no.FailsFinally) :
    (if condition then yes else no).FailsFinally := by
  split
  · exact hyes
  · exact hno

theorem failsFinally_mapM {list : List β} {work : β → Step σ α}
    (h : ∀ item, (work item).FailsFinally) : (list.mapM work).FailsFinally := by
  induction list with
  | nil => exact failsFinally_pure []
  | cons item rest ih =>
      rw [List.mapM_cons]
      exact (h item).bind fun value => ih.bind fun values => failsFinally_pure (value :: values)

theorem failsFinally_forM {list : List β} {work : β → Step σ PUnit}
    (h : ∀ item, (work item).FailsFinally) : (list.forM work).FailsFinally := by
  induction list with
  | nil => exact failsFinally_pure PUnit.unit
  | cons item rest ih => exact (h item).bind fun _ => ih

theorem FailsFinally.focus {part : σ → τ} {back : σ → τ → σ} {work : Step τ α}
    (h : work.FailsFinally) : (focus part back work).FailsFinally :=
  fun _ => FailsAs.focus (h _)

end Step

open Step

namespace Graph

theorem failsFinally_resetControl (interval : Nat) : (resetControl interval).FailsFinally := by
  have hwiden : (updateChecked (widenExit · interval)).FailsFinally :=
    failsFinally_updateChecked fun g => g.failsFinally_widenExit interval
  unfold resetControl
  refine (failsFinally_updateChecked failsFinally_clearControl).bind fun _ => ?_
  by_cases hpos : 0 < interval
  · simp only [hpos, if_true]
    refine failsFinally_current_bind fun g => ?_
    split
    · exact failsFinally_fail_bind _ _ _
    · refine (failsFinally_lift (Word.failsFinally_check _)).bind fun slot => ?_
      exact (failsFinally_updateChecked fun h => h.failsFinally_changeUnit _ _).bind fun _ => hwiden
  · simp only [hpos, if_false]
    exact hwiden

theorem failsFinally_delayPhis : delayPhis.FailsFinally := by
  have hdelay : ∀ ends id, (delayPhi ends id).FailsFinally := by
    intro ends id
    unfold delayPhi
    refine failsFinally_current_bind fun g => ?_
    refine (failsFinally_lift (g.failsFinally_unit id)).bind fun unit => ?_
    split
    · split
      · exact failsFinally_pure _
      · split
        · exact failsFinally_fail _ _
        · refine (failsFinally_lift (Word.failsFinally_check _)).bind fun moved => ?_
          exact failsFinally_ite (failsFinally_fail _ _)
            (failsFinally_updateChecked fun h => h.failsFinally_changeUnit _ _)
    · exact failsFinally_pure _
  unfold delayPhis
  refine failsFinally_current_bind fun g => ?_
  refine FailsFinally.bind (failsFinally_mapM fun block => ?_) fun ends =>
    failsFinally_forM (hdelay ends)
  exact (failsFinally_lift (g.failsFinally_endSlot block)).bind fun _ => failsFinally_pure _

end Graph

/-- Once a search has found its bounds, it does not give up. -/
theorem PipelineSearch.failsFinally_commit : commit.FailsFinally := by
  unfold commit
  refine failsFinally_current_bind fun search => ?_
  refine (failsFinally_lift (Word.failsFinally_check _)).bind fun expected => ?_
  split
  all_goals
    apply Step.FailsFinally.bind
    · first
        | exact failsFinally_pure none
        | exact (failsFinally_lift (search.graph.failsFinally_unit _)).map
    intro slot
    refine (failsFinally_lift (search.graph.failsFinally_endSlot _)).bind fun last => ?_
    apply failsFinally_ite
    · exact failsFinally_fail_bind _ _ _
    refine Step.FailsFinally.bind ?_ fun _ => ?_
    · exact ((failsFinally_update _).bind fun _ => Graph.failsFinally_delayPhis).focus
    refine (failsFinally_records _).bind fun recorded => ?_
    apply failsFinally_ite
    · refine failsFinally_current_bind fun search' => ?_
      refine (failsFinally_lift (search'.graph.failsFinally_totalSlot _)).bind fun total => ?_
      exact (failsFinally_note _ _).bind fun _ => failsFinally_pure _
    · exact failsFinally_pure _

end SlotScheduling
