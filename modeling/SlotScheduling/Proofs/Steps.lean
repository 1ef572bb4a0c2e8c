import SlotScheduling.Journal

/-!
# Steps that end well, and steps that keep something

A step that ends well is taken apart into the steps it is made of.  What every
part of a step keeps, whether or not it ends well, the whole step keeps.
-/

namespace SlotScheduling.Step

variable {σ τ α β : Type} {now last : Journaled σ}

theorem pure_eq_ok {value value' : α} :
    (pure value : Step σ α) now = .ok value' last ↔ value' = value ∧ last = now := by
  show EStateM.Result.ok value now = .ok value' last ↔ _
  simp [eq_comm]

theorem lift_eq_ok {work : Checked α} {value : α} :
    (liftM work : Step σ α) now = .ok value last ↔ work = .ok value ∧ last = now := by
  show ofChecked work now = _ ↔ _
  unfold ofChecked
  cases work <;> simp [eq_comm]

theorem current_eq_ok {state : σ} :
    (current : Step σ σ) now = .ok state last ↔ state = now.state ∧ last = now := by
  simp [current, eq_comm]

theorem updateChecked_eq_ok {change : σ → Checked σ} {result : PUnit} :
    updateChecked change now = .ok result last ↔
      ∃ state, change now.state = .ok state ∧ last = ⟨state, now.journal⟩ := by
  unfold updateChecked
  cases change now.state <;> simp [eq_comm]

theorem note_eq_ok {level : Level} {text : Unit → String} {result : PUnit} :
    note level text now = .ok result last ↔
      last = ⟨now.state, now.journal.note level text⟩ := by
  simp [note, eq_comm]

theorem records_eq_ok {level : Level} {value : Bool} :
    records level now = .ok value last ↔ value = now.journal.records level ∧ last = now := by
  simp [records, eq_comm]

theorem fail_ne_ok {cause : SchedulingError} {value : α} :
    (fail cause : Step σ α) now ≠ .ok value last := by
  simp [fail]

theorem fail_bind_ne_ok {cause : SchedulingError} {next : β → Step σ α} {value : α} :
    (fail cause >>= next) now ≠ .ok value last := by
  intro h
  obtain ⟨_, _, hfail, _⟩ := bind_eq_ok.mp h
  exact fail_ne_ok hfail

theorem ite_eq_ok {condition : Prop} [Decidable condition] {yes no : Step σ α} {value : α} :
    (if condition then yes else no) now = .ok value last ↔
      condition ∧ yes now = .ok value last ∨ ¬condition ∧ no now = .ok value last := by
  by_cases h : condition <;> simp [h]

theorem focus_eq_ok {part : σ → τ} {back : σ → τ → σ} {work : Step τ α} {value : α} :
    focus part back work now = .ok value last ↔
      ∃ inner, work ⟨part now.state, now.journal⟩ = .ok value inner ∧
        last = ⟨back now.state inner.state, inner.journal⟩ := by
  unfold focus
  cases hwork : work ⟨part now.state, now.journal⟩ with
  | ok value' inner =>
      constructor
      · intro h
        cases h
        exact ⟨inner, rfl, rfl⟩
      · rintro ⟨inner', h, rfl⟩
        cases h
        rfl
  | error failure inner => simp

theorem apart_eq_ok {start : τ} {work : Step τ α} {value : α} {state : τ} :
    apart start work now = .ok (value, state) last ↔
      ∃ inner, work ⟨start, now.journal⟩ = .ok value inner ∧ inner.state = state ∧
        last = ⟨now.state, inner.journal⟩ := by
  unfold apart
  cases work ⟨start, now.journal⟩ <;> simp [eq_comm, and_assoc]

theorem map_eq_ok {f : α → β} {work : Step σ α} {value : β} :
    (f <$> work) now = .ok value last ↔
      ∃ inner, work now = .ok inner last ∧ value = f inner := by
  show EStateM.map f work now = _ ↔ _
  unfold EStateM.map
  cases hwork : work now with
  | ok value' inner =>
      constructor
      · intro h
        cases h
        exact ⟨value', rfl, rfl⟩
      · rintro ⟨inner', h, rfl⟩
        cases h
        rfl
  | error failure inner => simp

/-- The step ends well with a value that passes a test. -/
def succeeds (step : Step σ α) (now : Journaled σ) (test : α → Bool) : Bool :=
  match step now with
  | .ok value _ => test value
  | .error _ _ => false

theorem exists_of_succeeds {step : Step σ α} {test : α → Bool}
    (h : step.succeeds now test = true) :
    ∃ value last, step now = .ok value last ∧ test value = true := by
  unfold succeeds at h
  split at h
  next value last hrun => exact ⟨value, last, hrun, h⟩
  next => cases h

/-- The step ends well and leaves a state that passes a test. -/
theorem exists_last_of_succeeds {step : Step σ PUnit} {test : σ → Bool}
    (h : (step >>= fun _ => current).succeeds now test = true) :
    ∃ last, step now = .ok ⟨⟩ last ∧ test last.state = true := by
  obtain ⟨_, _, hrun, htest⟩ := exists_of_succeeds h
  obtain ⟨_, last, hstep, hcurrent⟩ := bind_eq_ok.mp hrun
  obtain ⟨rfl, _⟩ := current_eq_ok.mp hcurrent
  exact ⟨last, hstep, htest⟩

/-- How the step fails, if it does. -/
def failure? (step : Step σ α) (now : Journaled σ) : Option Failure :=
  match step now with
  | .ok _ _ => none
  | .error failure _ => some failure

theorem exists_of_failure? {step : Step σ α} {failure : Failure}
    (h : step.failure? now = some failure) : ∃ last, step now = .error failure last := by
  unfold failure? at h
  split at h
  next => cases h
  next failure' last hrun =>
    cases h
    exact ⟨last, hrun⟩

/-! ## First steps -/

theorem current_bind (next : σ → Step σ α) : (current >>= next) now = next now.state now :=
  rfl

theorem note_bind (level : Level) (text : Unit → String) (next : PUnit → Step σ α) :
    (note level text >>= next) now = next ⟨⟩ ⟨now.state, now.journal.note level text⟩ :=
  rfl

theorem update_bind (change : σ → σ) (next : PUnit → Step σ α) :
    (update change >>= next) now = next ⟨⟩ ⟨change now.state, now.journal⟩ :=
  rfl

theorem replace_bind (state : σ) (next : PUnit → Step σ α) :
    (replace state >>= next) now = next ⟨⟩ ⟨state, now.journal⟩ :=
  rfl

theorem lift_bind_eq_ok {work : Checked β} {next : β → Step σ α} {value : α} :
    (liftM work >>= next) now = .ok value last ↔
      ∃ inner, work = .ok inner ∧ next inner now = .ok value last := by
  rw [bind_eq_ok]
  constructor
  · rintro ⟨inner, now', hlift, hnext⟩
    obtain ⟨hwork, rfl⟩ := lift_eq_ok.mp hlift
    exact ⟨inner, hwork, hnext⟩
  · rintro ⟨inner, hwork, hnext⟩
    exact ⟨inner, now, lift_eq_ok.mpr ⟨hwork, rfl⟩, hnext⟩

theorem bind_of_eq_ok {first : Step σ α} {next : α → Step σ β} {value : α}
    (h : first now = .ok value last) : (first >>= next) now = next value last := by
  show EStateM.bind first next now = _
  rw [EStateM.bind, h]

theorem lift_bind_of_eq_ok {work : Checked α} {next : α → Step σ β} {value : α}
    (h : work = .ok value) : (liftM work >>= next) now = next value now :=
  bind_of_eq_ok (lift_eq_ok.mpr ⟨h, rfl⟩)

theorem updateChecked_bind_eq_ok {change : σ → Checked σ} {next : PUnit → Step σ α}
    {value : α} :
    (updateChecked change >>= next) now = .ok value last ↔
      ∃ state, change now.state = .ok state ∧
        next ⟨⟩ ⟨state, now.journal⟩ = .ok value last := by
  rw [bind_eq_ok]
  constructor
  · rintro ⟨_, now', hupdate, hnext⟩
    obtain ⟨state, hchange, rfl⟩ := updateChecked_eq_ok.mp hupdate
    exact ⟨state, hchange, hnext⟩
  · rintro ⟨state, hchange, hnext⟩
    exact ⟨⟨⟩, _, updateChecked_eq_ok.mpr ⟨state, hchange, rfl⟩, hnext⟩

/-- Each round adds something that later rounds keep, so that in the end all of
it is there. -/
theorem foldlM_forall {P : α → σ → Prop} {Q : β → σ → Prop} {list : List β}
    {round : α → β → Step σ α}
    (hround : ∀ item ∈ list, ∀ before after now last, P before now.state →
      round before item now = .ok after last →
      P after last.state ∧ Q item last.state ∧ ∀ other, Q other now.state → Q other last.state)
    {first result : α} (h : P first now.state)
    (hrun : list.foldlM round first now = .ok result last) :
    P result last.state ∧ ∀ item ∈ list, Q item last.state := by
  suffices hstrong : P result last.state ∧
      (∀ item, Q item now.state → Q item last.state) ∧ ∀ item ∈ list, Q item last.state from
    ⟨hstrong.1, hstrong.2.2⟩
  induction list generalizing first now with
  | nil =>
      rw [List.foldlM_nil, pure_eq_ok] at hrun
      obtain ⟨rfl, rfl⟩ := hrun
      exact ⟨h, fun _ h => h, by simp⟩
  | cons item rest ih =>
      rw [List.foldlM_cons, bind_eq_ok] at hrun
      obtain ⟨next, now', hnext, hrun⟩ := hrun
      obtain ⟨hP, hQ, hkeep⟩ := hround item List.mem_cons_self first next now now' h hnext
      obtain ⟨hlast, hkept, hrest⟩ :=
        ih (fun other hother => hround other (List.mem_cons_of_mem item hother)) hP hrun
      refine ⟨hlast, fun other hother => hkept other (hkeep other hother), ?_⟩
      intro other hother
      rcases List.mem_cons.mp hother with rfl | hother
      · exact hkept other hQ
      · exact hrest other hother

theorem foldlM_induction {P : α → σ → Prop} {list : List β} {round : α → β → Step σ α}
    (hround : ∀ item ∈ list, ∀ before after now last, P before now.state →
      round before item now = .ok after last → P after last.state)
    {first result : α} (h : P first now.state)
    (hrun : list.foldlM round first now = .ok result last) : P result last.state :=
  (foldlM_forall (Q := fun _ _ => True)
    (fun item hitem before after now last hbefore hrun =>
      ⟨hround item hitem before after now last hbefore hrun, trivial, fun _ _ => trivial⟩)
    h hrun).1

theorem forM_induction {P : σ → Prop} {list : List β} {work : β → Step σ PUnit}
    (hwork : ∀ item ∈ list, ∀ now result last, P now.state →
      work item now = .ok result last → P last.state)
    {result : PUnit} (h : P now.state) (hrun : list.forM work now = .ok result last) :
    P last.state := by
  induction list generalizing now with
  | nil =>
      obtain ⟨_, rfl⟩ := pure_eq_ok.mp hrun
      exact h
  | cons item rest ih =>
      obtain ⟨_, middle, hfirst, hrest⟩ := bind_eq_ok.mp hrun
      exact ih (fun other hother => hwork other (List.mem_cons_of_mem _ hother))
        (hwork item List.mem_cons_self _ _ _ h hfirst) hrest

/-! ## What a step keeps -/

/-- The state that a step leaves behind. -/
def stateOf : EStateM.Result Failure (Journaled σ) α → σ
  | .ok _ last => last.state
  | .error _ last => last.state

variable {κ : Type} {key : σ → κ}

/-- Whether or not it ends well, the step leaves a part of the state as it is. -/
def Keeps (key : σ → κ) (step : Step σ α) : Prop :=
  ∀ now, key (stateOf (step now)) = key now.state

theorem Keeps.of_eq_ok {step : Step σ α} (h : step.Keeps key) {value : α}
    (hrun : step now = .ok value last) : key last.state = key now.state := by
  have hkept := h now
  rwa [hrun] at hkept

theorem Keeps.of_eq_error {step : Step σ α} (h : step.Keeps key) {failure : Failure}
    (hrun : step now = .error failure last) : key last.state = key now.state := by
  have hkept := h now
  rwa [hrun] at hkept

theorem Keeps.comp {κ' : Type} {step : Step σ α} (h : step.Keeps key) (part : κ → κ') :
    step.Keeps (part ∘ key) :=
  fun now => congrArg part (h now)

theorem keeps_pure (value : α) : (pure value : Step σ α).Keeps key := fun _ => rfl

theorem keeps_fail (cause : SchedulingError) : (fail cause : Step σ α).Keeps key :=
  fun _ => rfl

/-- A failure ends a step, whatever would come next. -/
theorem keeps_fail_bind (cause : SchedulingError) (next : β → Step σ α) :
    (fail cause >>= next).Keeps key :=
  fun _ => rfl

theorem keeps_lift (work : Checked α) : (liftM work : Step σ α).Keeps key := by
  intro now
  show key (stateOf (ofChecked work now)) = key now.state
  unfold ofChecked
  cases work with
  | ok value => rfl
  | error failure => rfl

theorem keeps_current : (current : Step σ σ).Keeps key := fun _ => rfl

theorem keeps_note (level : Level) (text : Unit → String) :
    (note level text : Step σ PUnit).Keeps key :=
  fun _ => rfl

theorem keeps_records (level : Level) : (records level : Step σ Bool).Keeps key :=
  fun _ => rfl

theorem keeps_update {change : σ → σ} (h : ∀ state, key (change state) = key state) :
    (update change).Keeps key :=
  fun now => h now.state

theorem keeps_updateChecked {change : σ → Checked σ}
    (h : ∀ state state', change state = .ok state' → key state' = key state) :
    (updateChecked change).Keeps key := by
  intro now
  unfold updateChecked
  cases hchange : change now.state with
  | ok state => exact h now.state state hchange
  | error failure => rfl

theorem Keeps.bind {first : Step σ α} {next : α → Step σ β} (hfirst : first.Keeps key)
    (hnext : ∀ value, (next value).Keeps key) : (first >>= next).Keeps key := by
  intro now
  have hstart := hfirst now
  show key (stateOf (EStateM.bind first next now)) = key now.state
  unfold EStateM.bind
  cases hrun : first now with
  | ok value middle =>
      rw [hrun] at hstart
      exact (hnext value middle).trans hstart
  | error failure middle =>
      rw [hrun] at hstart
      exact hstart

theorem Keeps.map {f : α → β} {work : Step σ α} (h : work.Keeps key) :
    (f <$> work).Keeps key := by
  intro now
  have hkept := h now
  show key (stateOf (EStateM.map f work now)) = key now.state
  unfold EStateM.map
  cases hrun : work now with
  | ok value last =>
      rw [hrun] at hkept
      exact hkept
  | error failure last =>
      rw [hrun] at hkept
      exact hkept

theorem keeps_ite {condition : Prop} [Decidable condition] {yes no : Step σ α}
    (hyes : yes.Keeps key) (hno : no.Keeps key) :
    (if condition then yes else no).Keeps key := by
  split
  · exact hyes
  · exact hno

theorem keeps_foldlM {list : List β} {round : α → β → Step σ α}
    (h : ∀ value item, (round value item).Keeps key) (start : α) :
    (list.foldlM round start).Keeps key := by
  induction list generalizing start with
  | nil => exact keeps_pure start
  | cons item rest ih => exact (h start item).bind fun value => ih value

theorem keeps_mapM {list : List β} {work : β → Step σ α}
    (h : ∀ item, (work item).Keeps key) : (list.mapM work).Keeps key := by
  induction list with
  | nil => exact keeps_pure []
  | cons item rest ih =>
      rw [List.mapM_cons]
      apply (h item).bind
      intro value
      exact ih.bind fun values => keeps_pure (value :: values)

theorem keeps_forM {list : List β} {work : β → Step σ PUnit}
    (h : ∀ item, (work item).Keeps key) : (list.forM work).Keeps key := by
  induction list with
  | nil => exact keeps_pure PUnit.unit
  | cons item rest ih => exact (h item).bind fun _ => ih

theorem Keeps.focus {inner : τ → κ} {part : σ → τ} {back : σ → τ → σ} {work : Step τ α}
    (h : work.Keeps inner)
    (hback : ∀ state state', inner state' = inner (part state) →
      key (back state state') = key state) :
    (focus part back work).Keeps key := by
  intro now
  have hinner := h ⟨part now.state, now.journal⟩
  unfold Step.focus
  cases hrun : work ⟨part now.state, now.journal⟩ with
  | ok value last =>
      rw [hrun] at hinner
      exact hback now.state last.state hinner
  | error failure last =>
      rw [hrun] at hinner
      exact hback now.state last.state hinner

/-! ## What a step maintains -/

variable {P : σ → Prop}

/-- Whether or not it ends well, the step leaves a state with the property if it found one. -/
def Maintains (P : σ → Prop) (step : Step σ α) : Prop :=
  ∀ now, P now.state → P (stateOf (step now))

theorem Maintains.of_eq_ok {step : Step σ α} (h : step.Maintains P) (hnow : P now.state)
    {value : α} (hrun : step now = .ok value last) : P last.state := by
  have hlast := h now hnow
  rwa [hrun] at hlast

theorem Maintains.of_eq_error {step : Step σ α} (h : step.Maintains P) (hnow : P now.state)
    {failure : Failure} (hrun : step now = .error failure last) : P last.state := by
  have hlast := h now hnow
  rwa [hrun] at hlast

theorem Keeps.maintains {step : Step σ α} (h : step.Keeps key)
    (hP : ∀ state state', key state' = key state → P state → P state') : step.Maintains P :=
  fun now hnow => hP now.state _ (h now) hnow

/-- A part of the state stays as it is if it keeps any value that it may have. -/
theorem keeps_of_maintains {step : Step σ α}
    (h : ∀ kept, step.Maintains fun state => key state = kept) : step.Keeps key :=
  fun now => h (key now.state) now rfl

theorem maintains_pure (value : α) : (pure value : Step σ α).Maintains P := fun _ hnow => hnow

theorem maintains_fail (cause : SchedulingError) : (fail cause : Step σ α).Maintains P :=
  fun _ hnow => hnow

theorem maintains_fail_bind (cause : SchedulingError) (next : β → Step σ α) :
    (fail cause >>= next).Maintains P :=
  fun _ hnow => hnow

theorem maintains_lift (work : Checked α) : (liftM work : Step σ α).Maintains P := by
  have hkeeps : (liftM work : Step σ α).Keeps (fun state => state) := keeps_lift work
  refine hkeeps.maintains fun state state' heq hP => ?_
  rwa [heq]

/-- What comes next may rely on the result of the computation. -/
theorem maintains_lift_bind {work : Checked α} {next : α → Step σ β}
    (h : ∀ value, work = .ok value → (next value).Maintains P) :
    (liftM work >>= next).Maintains P := by
  intro now hnow
  cases hwork : work with
  | ok value => exact h value hwork now hnow
  | error failure => exact hnow

theorem maintains_replace {state : σ} (h : P state) : (replace state).Maintains P :=
  fun _ _ => h

theorem maintains_note (level : Level) (text : Unit → String) :
    (note level text : Step σ PUnit).Maintains P :=
  fun _ hnow => hnow

theorem maintains_records (level : Level) : (records level : Step σ Bool).Maintains P :=
  fun _ hnow => hnow

theorem maintains_update {change : σ → σ} (h : ∀ state, P state → P (change state)) :
    (update change).Maintains P :=
  fun now hnow => h now.state hnow

theorem maintains_updateChecked {change : σ → Checked σ}
    (h : ∀ state state', change state = .ok state' → P state → P state') :
    (updateChecked change).Maintains P := by
  intro now hnow
  unfold updateChecked
  cases hchange : change now.state with
  | ok state => exact h now.state state hchange hnow
  | error failure => exact hnow

theorem Maintains.bind {first : Step σ α} {next : α → Step σ β} (hfirst : first.Maintains P)
    (hnext : ∀ value, (next value).Maintains P) : (first >>= next).Maintains P := by
  intro now hnow
  have hmiddle := hfirst now hnow
  show P (stateOf (EStateM.bind first next now))
  unfold EStateM.bind
  cases hrun : first now with
  | ok value middle =>
      rw [hrun] at hmiddle
      exact hnext value middle hmiddle
  | error failure middle =>
      rw [hrun] at hmiddle
      exact hmiddle

/-- What comes next may rely on the property of the state that is read. -/
theorem maintains_current_bind {next : σ → Step σ α}
    (h : ∀ state, P state → (next state).Maintains P) : (current >>= next).Maintains P :=
  fun now hnow => h now.state hnow now hnow

theorem Maintains.map {f : α → β} {work : Step σ α} (h : work.Maintains P) :
    (f <$> work).Maintains P := by
  intro now hnow
  have hlast := h now hnow
  show P (stateOf (EStateM.map f work now))
  unfold EStateM.map
  cases hrun : work now with
  | ok value last =>
      rw [hrun] at hlast
      exact hlast
  | error failure last =>
      rw [hrun] at hlast
      exact hlast

theorem maintains_ite {condition : Prop} [Decidable condition] {yes no : Step σ α}
    (hyes : yes.Maintains P) (hno : no.Maintains P) :
    (if condition then yes else no).Maintains P := by
  split
  · exact hyes
  · exact hno

theorem maintains_forM_of_mem {list : List β} {work : β → Step σ PUnit}
    (h : ∀ item ∈ list, (work item).Maintains P) : (list.forM work).Maintains P := by
  induction list with
  | nil => exact maintains_pure PUnit.unit
  | cons item rest ih =>
      obtain ⟨hitem, hrest⟩ := List.forall_mem_cons.mp h
      exact hitem.bind fun _ => ih hrest

theorem maintains_forM {list : List β} {work : β → Step σ PUnit}
    (h : ∀ item, (work item).Maintains P) : (list.forM work).Maintains P :=
  maintains_forM_of_mem fun item _ => h item

theorem Maintains.focus {Q : τ → Prop} {part : σ → τ} {back : σ → τ → σ} {work : Step τ α}
    (h : work.Maintains Q) (hpart : ∀ state, P state → Q (part state))
    (hback : ∀ state state', P state → Q state' → P (back state state')) :
    (focus part back work).Maintains P := by
  intro now hnow
  have hinner := h ⟨part now.state, now.journal⟩ (hpart now.state hnow)
  unfold Step.focus
  cases hrun : work ⟨part now.state, now.journal⟩ with
  | ok value last =>
      rw [hrun] at hinner
      exact hback now.state last.state hnow hinner
  | error failure last =>
      rw [hrun] at hinner
      exact hback now.state last.state hnow hinner

end SlotScheduling.Step
