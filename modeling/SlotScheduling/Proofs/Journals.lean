import SlotScheduling.Proofs.Steps

/-!
# Journals

Steps run in parallel on journals that record the same levels.  What has been noted so
far has no bearing on what a step does next, so that the outcomes differ in nothing but
the messages.
-/

namespace SlotScheduling

variable {σ τ : Type} {Q : σ → τ → Prop} {threshold : Option Level}

/-- The states are related, and the journals record the same levels. -/
structure Alike (threshold : Option Level) (Q : σ → τ → Prop) (now : Journaled σ)
    (now' : Journaled τ) : Prop where
  state : Q now.state now'.state
  left : now.journal.threshold = threshold
  right : now'.journal.threshold = threshold

theorem Journal.threshold_note (journal : Journal) (level : Level) (text : Unit → String) :
    (journal.note level text).threshold = journal.threshold := by
  unfold Journal.note
  split <;> rfl

theorem Journal.records_eq {journal journal' : Journal}
    (h : journal.threshold = journal'.threshold) (level : Level) :
    journal.records level = journal'.records level := by
  rw [Journal.records, h, Journal.records]

namespace Step

variable {α β : Type}

/-- The outcomes have one value or one failure, and states that are related. -/
def Matches (threshold : Option Level) (Q : σ → τ → Prop) :
    EStateM.Result Failure (Journaled σ) α → EStateM.Result Failure (Journaled τ) α → Prop
  | .ok value last, .ok value' last' => value = value' ∧ Alike threshold Q last last'
  | .error failure last, .error failure' last' =>
    failure = failure' ∧ Alike threshold Q last last'
  | _, _ => False

/-- From states that are related, the steps have outcomes that match. -/
def Parallel (Q : σ → τ → Prop) (step : Step σ α) (step' : Step τ α) : Prop :=
  ∀ ⦃threshold now now'⦄, Alike threshold Q now now' →
    Matches threshold Q (step now) (step' now')

variable {step : Step σ α} {step' : Step τ α}

theorem Parallel.of_eq_ok (h : Parallel Q step step') {now last : Journaled σ} {value : α}
    {now' : Journaled τ} (hnow : Alike threshold Q now now') (hrun : step now = .ok value last) :
    ∃ last', step' now' = .ok value last' ∧ Alike threshold Q last last' := by
  have hmatches := h hnow
  rw [hrun] at hmatches
  cases hrun' : step' now' with
  | ok value' last' =>
      rw [hrun'] at hmatches
      obtain ⟨rfl, hlast⟩ := hmatches
      exact ⟨last', rfl, hlast⟩
  | error failure last' =>
      rw [hrun'] at hmatches
      exact hmatches.elim

theorem Parallel.of_eq_error (h : Parallel Q step step') {now last : Journaled σ}
    {failure : Failure} {now' : Journaled τ} (hnow : Alike threshold Q now now')
    (hrun : step now = .error failure last) :
    ∃ last', step' now' = .error failure last' ∧ Alike threshold Q last last' := by
  have hmatches := h hnow
  rw [hrun] at hmatches
  cases hrun' : step' now' with
  | ok value last' =>
      rw [hrun'] at hmatches
      exact hmatches.elim
  | error failure' last' =>
      rw [hrun'] at hmatches
      obtain ⟨rfl, hlast⟩ := hmatches
      exact ⟨last', rfl, hlast⟩

theorem parallel_pure (value : α) : Parallel Q (pure value : Step σ α) (pure value) :=
  fun _ _ _ hnow => ⟨rfl, hnow⟩

theorem parallel_fail (cause : SchedulingError) :
    Parallel Q (fail cause : Step σ α) (fail cause) :=
  fun _ _ _ hnow => ⟨rfl, hnow⟩

theorem parallel_fail_bind (cause : SchedulingError) (next : β → Step σ α) (next' : β → Step τ α) :
    Parallel Q (fail cause >>= next) (fail cause >>= next') :=
  fun _ _ _ hnow => ⟨rfl, hnow⟩

theorem parallel_lift (work : Checked α) : Parallel Q (liftM work : Step σ α) (liftM work) := by
  intro threshold now now' hnow
  show Matches threshold Q (ofChecked work now) (ofChecked work now')
  unfold ofChecked
  cases work <;> exact ⟨rfl, hnow⟩

theorem parallel_note (level : Level) (text text' : Unit → String) :
    Parallel Q (note level text : Step σ PUnit) (note level text') :=
  fun _ _ _ hnow => ⟨rfl, hnow.state, (Journal.threshold_note _ _ _).trans hnow.left,
    (Journal.threshold_note _ _ _).trans hnow.right⟩

theorem parallel_records (level : Level) :
    Parallel Q (records level : Step σ Bool) (records level) :=
  fun _ _ _ hnow => ⟨Journal.records_eq (hnow.left.trans hnow.right.symm) level, hnow⟩

theorem Matches.mono {R : σ → τ → Prop} {result : EStateM.Result Failure (Journaled σ) α}
    {result' : EStateM.Result Failure (Journaled τ) α} (h : Matches threshold Q result result')
    (hstate : ∀ {state state'}, Q state state' → R state state') :
    Matches threshold R result result' := by
  cases result <;> cases result'
  · exact ⟨h.1, hstate h.2.state, h.2.left, h.2.right⟩
  · exact h.elim
  · exact h.elim
  · exact ⟨h.1, hstate h.2.state, h.2.left, h.2.right⟩

/-- Where outcomes match, whatever comes next may have outcomes that match. -/
theorem Matches.bind {next : α → Step σ β} {next' : α → Step τ β} {now : Journaled σ}
    {now' : Journaled τ} (hfirst : Matches threshold Q (step now) (step' now'))
    (hnext : ∀ value, Parallel Q (next value) (next' value)) :
    Matches threshold Q ((step >>= next) now) ((step' >>= next') now') := by
  show Matches threshold Q (EStateM.bind step next now) (EStateM.bind step' next' now')
  unfold EStateM.bind
  cases hrun : step now <;> cases hrun' : step' now' <;> rw [hrun, hrun'] at hfirst
  · obtain ⟨rfl, hmiddle⟩ := hfirst
    exact hnext _ hmiddle
  · exact hfirst.elim
  · exact hfirst.elim
  · exact hfirst

theorem Parallel.bind {next : α → Step σ β} {next' : α → Step τ β} (hfirst : Parallel Q step step')
    (hnext : ∀ value, Parallel Q (next value) (next' value)) :
    Parallel Q (step >>= next) (step' >>= next') :=
  fun _ _ _ hnow => (hfirst hnow).bind hnext

theorem Parallel.map (h : Parallel Q step step') (f : α → β) :
    Parallel Q (f <$> step) (f <$> step') := by
  intro threshold now now' hnow
  have hlast := h hnow
  show Matches threshold Q (EStateM.map f step now) (EStateM.map f step' now')
  unfold EStateM.map
  cases hrun : step now <;> cases hrun' : step' now' <;> rw [hrun, hrun'] at hlast
  · exact ⟨congrArg f hlast.1, hlast.2⟩
  · exact hlast.elim
  · exact hlast.elim
  · exact hlast

theorem parallel_ite {condition : Prop} [Decidable condition] {yes no : Step σ α}
    {yes' no' : Step τ α} (hyes : Parallel Q yes yes') (hno : Parallel Q no no') :
    Parallel Q (if condition then yes else no) (if condition then yes' else no') := by
  split
  · exact hyes
  · exact hno

theorem parallel_foldlM {list : List β} {round : α → β → Step σ α} {round' : α → β → Step τ α}
    (h : ∀ value item, Parallel Q (round value item) (round' value item)) (start : α) :
    Parallel Q (list.foldlM round start) (list.foldlM round' start) := by
  induction list generalizing start with
  | nil => exact parallel_pure start
  | cons item rest ih => exact (h start item).bind fun value => ih value

theorem parallel_mapM {list : List β} {work : β → Step σ α} {work' : β → Step τ α}
    (h : ∀ item, Parallel Q (work item) (work' item)) :
    Parallel Q (list.mapM work) (list.mapM work') := by
  induction list with
  | nil => exact parallel_pure []
  | cons item rest ih =>
      rw [List.mapM_cons, List.mapM_cons]
      apply (h item).bind
      intro value
      exact ih.bind fun values => parallel_pure (value :: values)

theorem parallel_forM {list : List β} {work : β → Step σ PUnit} {work' : β → Step τ PUnit}
    (h : ∀ item ∈ list, Parallel Q (work item) (work' item)) :
    Parallel Q (list.forM work) (list.forM work') := by
  induction list with
  | nil => exact parallel_pure PUnit.unit
  | cons item rest ih =>
      exact (h item List.mem_cons_self).bind fun _ =>
        ih fun other hmem => h other (List.mem_cons_of_mem item hmem)

theorem parallel_current_bind {next : σ → Step σ α} {next' : τ → Step τ α}
    (h : ∀ state state', Q state state' → Parallel Q (next state) (next' state')) :
    Parallel Q (current >>= next) (current >>= next') :=
  fun _ now now' hnow => h now.state now'.state hnow.state hnow

theorem parallel_lift_bind {work : Checked β} {next : β → Step σ α} {next' : β → Step τ α}
    (h : ∀ value, work = .ok value → Parallel Q (next value) (next' value)) :
    Parallel Q (liftM work >>= next) (liftM work >>= next') := by
  intro threshold now now' hnow
  cases hwork : work with
  | ok value => exact h value hwork hnow
  | error failure => exact ⟨rfl, hnow⟩

theorem parallel_lift_ok_bind {γ : Type} {work : Checked β} {work' : Checked γ} {value : β}
    {value' : γ} {next : β → Step σ α} {next' : γ → Step τ α} (hwork : work = .ok value)
    (hwork' : work' = .ok value') (h : Parallel Q (next value) (next' value')) :
    Parallel Q (liftM work >>= next) (liftM work' >>= next') := by
  subst hwork hwork'
  exact h

/-- Work whose results look the same in some respect leaves only that to what follows. -/
theorem parallel_lift_map_bind {γ κ : Type} {work : Checked β} {work' : Checked γ} {look : β → κ}
    {look' : γ → κ} {next : β → Step σ α} {next' : γ → Step τ α}
    (hwork : look' <$> work' = look <$> work)
    (h : ∀ value value', look' value' = look value → Parallel Q (next value) (next' value')) :
    Parallel Q (liftM work >>= next) (liftM work' >>= next') := by
  cases work with
  | ok value =>
      cases work' with
      | ok value' => exact h value value' (Except.ok.inj hwork)
      | error failure => cases hwork
  | error failure =>
      cases work' with
      | ok value => cases hwork
      | error failure' =>
          obtain rfl := Except.error.inj hwork
          exact fun _ _ _ hnow => ⟨rfl, hnow⟩

theorem parallel_replace {state : σ} {state' : τ} (h : Q state state') :
    Parallel Q (replace state) (replace state') :=
  fun _ _ _ hnow => ⟨rfl, h, hnow.left, hnow.right⟩

theorem parallel_update {change : σ → σ} {change' : τ → τ}
    (h : ∀ state state', Q state state' → Q (change state) (change' state')) :
    Parallel Q (update change) (update change') :=
  fun _ _ _ hnow => ⟨rfl, h _ _ hnow.state, hnow.left, hnow.right⟩

theorem parallel_updateChecked {change : σ → Checked σ} {change' : τ → Checked τ}
    (h : ∀ state state', Q state state' →
      (∃ failure, change state = .error failure ∧ change' state' = .error failure) ∨
        ∃ last last', change state = .ok last ∧ change' state' = .ok last' ∧ Q last last') :
    Parallel Q (updateChecked change) (updateChecked change') := by
  intro threshold now now' hnow
  unfold updateChecked
  obtain ⟨failure, hfail, hfail'⟩ | ⟨last, last', hlast, hlast', hsame⟩ := h _ _ hnow.state
  · rw [hfail, hfail']
    exact ⟨rfl, hnow⟩
  · rw [hlast, hlast']
    exact ⟨rfl, hsame, hnow.left, hnow.right⟩

/-- States that look the same in some respect still do so after changes that do the same to what is
seen. -/
theorem parallel_updateChecked_map {look : σ → τ} {change : σ → Checked σ}
    (h : ∀ state state', look state' = look state →
      look <$> change state' = look <$> change state) :
    Parallel (fun state state' => look state' = look state) (updateChecked change)
      (updateChecked change) := by
  refine parallel_updateChecked fun state state' hsame => ?_
  have hlooks := h state state' hsame
  cases hchange : change state <;> cases hchange' : change state' <;>
    rw [hchange, hchange'] at hlooks
  · obtain rfl := Except.error.inj hlooks
    exact Or.inl ⟨_, rfl, rfl⟩
  · cases hlooks
  · cases hlooks
  · exact Or.inr ⟨_, _, rfl, rfl, Except.ok.inj hlooks⟩

/-- Work on related parts of the states. -/
theorem Parallel.focus {σ' τ' : Type} {R : σ' → τ' → Prop} {work : Step σ α} {work' : Step τ α}
    (h : Parallel Q work work') {part : σ' → σ} {part' : τ' → τ} {back : σ' → σ → σ'}
    {back' : τ' → τ → τ'} (hpart : ∀ state state', R state state' → Q (part state) (part' state'))
    (hback : ∀ state state' last last', R state state' → Q last last' →
      R (back state last) (back' state' last')) :
    Parallel R (Step.focus part back work) (Step.focus part' back' work') := by
  intro threshold now now' hnow
  have hlast := h (⟨hpart _ _ hnow.state, hnow.left, hnow.right⟩ :
    Alike threshold Q ⟨part now.state, now.journal⟩ ⟨part' now'.state, now'.journal⟩)
  unfold Step.focus
  cases hrun : work ⟨part now.state, now.journal⟩ <;>
    cases hrun' : work' ⟨part' now'.state, now'.journal⟩ <;> rw [hrun, hrun'] at hlast
  · exact ⟨hlast.1, hback _ _ _ _ hnow.state hlast.2.state, hlast.2.left, hlast.2.right⟩
  · exact hlast.elim
  · exact hlast.elim
  · exact ⟨hlast.1, hback _ _ _ _ hnow.state hlast.2.state, hlast.2.left, hlast.2.right⟩

/-- Work on a state of its own does the same wherever it is done. -/
theorem Parallel.apart {work work' : Step τ α} (h : Parallel Eq work work') {σ' : Type}
    {Q : σ → σ' → Prop} (start : τ) :
    Parallel Q (apart start work) (Step.apart start work') := by
  intro threshold now now' hnow
  have hstart : Alike threshold Eq ⟨start, now.journal⟩ ⟨start, now'.journal⟩ :=
    ⟨rfl, hnow.left, hnow.right⟩
  have hlast := h hstart
  unfold Step.apart
  cases hrun : work ⟨start, now.journal⟩ <;> cases hrun' : work' ⟨start, now'.journal⟩ <;>
    rw [hrun, hrun'] at hlast
  · obtain ⟨rfl, hlast⟩ := hlast
    exact ⟨by rw [hlast.state], hnow.state, hlast.left, hlast.right⟩
  · exact hlast.elim
  · exact hlast.elim
  · exact ⟨hlast.1, hnow.state, hlast.2.left, hlast.2.right⟩

/-! ## Steps that ignore the messages -/

/-- Two runs of the step on one state differ in nothing but the messages. -/
abbrev IgnoresMessages (step : Step σ α) : Prop := Parallel Eq step step

theorem ignores_current_bind {next : σ → Step σ α} (h : ∀ state, (next state).IgnoresMessages) :
    (current >>= next).IgnoresMessages :=
  parallel_current_bind fun state _ heq => heq ▸ h state

theorem ignores_replace (state : σ) : (replace state).IgnoresMessages := parallel_replace rfl

theorem ignores_update (change : σ → σ) : (update change).IgnoresMessages :=
  parallel_update fun _ _ heq => congrArg change heq

theorem ignores_updateChecked (change : σ → Checked σ) :
    (updateChecked change).IgnoresMessages := by
  refine parallel_updateChecked fun state state' heq => ?_
  obtain rfl := heq
  cases change state with
  | ok state' => exact Or.inr ⟨state', state', rfl, rfl, rfl⟩
  | error failure => exact Or.inl ⟨failure, rfl, rfl⟩

theorem IgnoresMessages.focus {work : Step τ α} (h : work.IgnoresMessages) (part : σ → τ)
    (back : σ → τ → σ) : (focus part back work).IgnoresMessages :=
  Parallel.focus h (fun _ _ heq => congrArg part heq) fun _ _ _ _ heq hpart => by rw [heq, hpart]

end Step

end SlotScheduling
