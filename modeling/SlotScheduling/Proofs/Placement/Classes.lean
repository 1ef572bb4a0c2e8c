import SlotScheduling.Proofs.Placement.Arranged
import SlotScheduling.Proofs.Placement.Kept
import SlotScheduling.Strategy

/-!
# Classes of results

Only the last round of the data path decides classes.  It gives one to every unit of
the data path, and a frozen unit that has one keeps it.
-/

namespace SlotScheduling

namespace Graph

variable {g g' : Graph}

/-! ## The control path -/

theorem class?_of_bare_eq (h : g'.bare = g.bare) : g'.class? = g.class? := by
  have hclass : ∀ g : Graph, g.bare.class? = g.class? := by
    intro g
    funext id
    simp only [class?, bare, Array.getElem?_map]
    cases g.units[id]? <;> rfl
  rw [← hclass g', h, hclass g]

theorem class?_clearControl (h : g.clearControl = .ok g') : g'.class? = g.class? := by
  obtain ⟨middle, hmiddle, h⟩ := Checked.bind_eq_ok.mp h
  exact (class?_changeUnit h fun _ _ => rfl).trans (class?_changeUnits hmiddle fun _ => rfl)

theorem class?_widenExit {interval : Nat} (h : g.widenExit interval = .ok g') :
    g'.class? = g.class? := by
  unfold widenExit at h
  split at h
  · obtain rfl := Checked.pure_eq_ok.mp h
    rfl
  · obtain ⟨_, _, h⟩ := Checked.bind_eq_ok.mp h
    obtain ⟨phis, _, h⟩ := Checked.bind_eq_ok.mp h
    refine Checked.foldlM_induction (P := fun g' => g'.class? = g.class?)
      (fun phi _ g₁ g₂ hsame hround => ?_) rfl h
    have hstep : g₂.class? = g₁.class? := class?_changeUnit hround fun _ _ => rfl
    exact hstep.trans hsame

theorem class?_reanchor : Graph.reanchor.Keeps class? :=
  fun now => class?_of_bare_eq (keeps_reanchor now)

end Graph

open SlotScheduling.Graph

theorem ControlPath.keeps_schedule : ControlPath.schedule.Keeps class? := by
  intro now
  refine ControlPath.maintains_schedule (P := fun g => g.class? = now.state.class?)
    (fun g g' h hg => ?_) (class?_reanchor.maintains fun _ _ h hg => h.trans hg) now rfl
  have hclasses : g'.class? = g.class? := congrArg Prod.snd h
  exact hclasses.trans hg

namespace Graph

variable {options : SchedulingOptions} {now last : Journaled Graph} {result : PUnit}

/-- Straight-line code keeps all classes. -/
theorem class?_scheduleStraight (h : scheduleStraight options now = .ok result last) :
    last.state.class? = now.state.class? := by
  obtain ⟨_, cleared, hreset, h⟩ := Step.bind_eq_ok.mp h
  obtain ⟨middle, hclear, hwiden⟩ := resetControl_zero_cases hreset
  have hkeeps : (Strategy.run .controlPath options).Keeps class? :=
    (Step.keeps_note _ _).bind fun _ => ControlPath.keeps_schedule
  have hplaced : last.state.class? = cleared.state.class? := hkeeps.of_eq_ok h
  rw [hplaced, class?_widenExit hwiden, class?_clearControl hclear]

end Graph

/-! ## The data path -/

namespace DataPath

variable {g g' : Graph} {id : UnitId} {options : SchedulingOptions} {now last : Journaled Graph}
  {result : PUnit}

theorem class?_placeDangling {placed : Bool} (h : placeDangling g id = .ok (g', placed)) :
    g'.class? = g.class? := by
  obtain ⟨unit, _, hcases⟩ := placeDangling_cases h
  rcases hcases with ⟨_, hset⟩ | ⟨_, _, rfl⟩ | ⟨_, _, slot, _, hplace⟩
  · exact class?_changeUnit hset fun _ _ => rfl
  · rfl
  · exact class?_changeUnit hplace fun _ _ => rfl

theorem class?_placeAllDangling {ids : List UnitId} {count : Nat}
    (h : placeAllDangling ids now = .ok count last) : last.state.class? = now.state.class? := by
  refine Step.foldlM_induction (P := fun _ after => after.class? = now.state.class?)
    (fun id _ count count' before after hbefore hround => ?_) rfl h
  simp only [Step.current_bind, Step.lift_bind_eq_ok] at hround
  obtain ⟨⟨g', placed⟩, hplace, hround⟩ := hround
  rw [Step.replace_bind, Step.pure_eq_ok] at hround
  obtain ⟨_, rfl⟩ := hround
  exact (class?_placeDangling hplace).trans hbefore

/-- What one round of the classification does to the classes. -/
theorem class?_classify (h : classify options g id = .ok g') :
    (∀ other, other ≠ id → g'.class? other = g.class? other) ∧ (g'.class? id).isSome ∧
      (g.IsFrozen id → (g.class? id).isSome → g'.class? id = g.class? id) := by
  obtain ⟨unit, hunit, h⟩ := Checked.bind_eq_ok.mp h
  rw [unit_eq_ok] at hunit
  have hclass : g.class? id = unit.valueClass := by rw [class?, hunit, Option.bind_some]
  split at h
  next hkeep =>
    obtain rfl := Checked.pure_eq_ok.mp h
    rw [Bool.and_eq_true] at hkeep
    exact ⟨fun _ _ => rfl, hclass ▸ hkeep.2, fun _ _ => rfl⟩
  next hchange =>
    obtain ⟨valueClass, _, h⟩ := Checked.bind_eq_ok.mp h
    refine ⟨fun other hne => ?_, ?_, ?_⟩
    · rw [class?, getElem?_changeUnit h, if_neg (Ne.symm hne), class?]
    · rw [class?, getElem?_changeUnit h, if_pos rfl, hunit]
      rfl
    · rintro ⟨unit', hunit', hfixed⟩ hsome
      obtain rfl := Option.some.inj (hunit.symm.trans hunit')
      rw [hclass] at hsome
      exact absurd (by simp [hfixed, hsome]) hchange

theorem class?_classifyAll {ids : List UnitId} (h : ids.foldlM (classify options) g = .ok g') :
    (∀ id, id ∉ ids → g'.class? id = g.class? id) ∧
      (∀ id, g.IsFrozen id → (g.class? id).isSome → g'.class? id = g.class? id) ∧
      ∀ id ∈ ids, (g'.class? id).isSome := by
  have hfold := Checked.foldlM_forall (P := fun g' => g'.frame = g.frame ∧
      (∀ id, id ∉ ids → g'.class? id = g.class? id) ∧
      ∀ id, g.IsFrozen id → (g.class? id).isSome → g'.class? id = g.class? id)
    (Q := fun id g' => (g'.class? id).isSome)
    (fun id hid before after hbefore hround => ?_) ⟨rfl, fun _ _ => rfl, fun _ _ _ => rfl⟩ h
  · exact ⟨hfold.1.2.1, hfold.1.2.2, hfold.2⟩
  · obtain ⟨hframe, houtside, hfrozen⟩ := hbefore
    obtain ⟨hothers, hsome, hkept⟩ := class?_classify hround
    refine ⟨⟨(classify_sound hround).1.trans hframe, fun other hother => ?_,
      fun other hfixed hclass => ?_⟩, hsome, fun other hother => ?_⟩
    · have hne : other ≠ id := fun heq => hother (heq ▸ hid)
      rw [hothers other hne, houtside other hother]
    · have hold := hfrozen other hfixed hclass
      by_cases heq : other = id
      · subst heq
        rw [← hold] at hclass
        exact (hkept ((isFrozen_of_frame_eq hframe).mpr hfixed) hclass).trans hold
      · rw [hothers other heq, hold]
    · by_cases heq : other = id
      · rw [heq]
        exact hsome
      · rw [hothers other heq]
        exact hother

/-- The data path gives a class to every unit of its own.  Control units keep what they
have, and so do frozen units that have a class. -/
theorem schedule_classes (hg : now.state.Listed) (h : schedule options now = .ok result last) :
    (∀ {id}, now.state.IsControl id → last.state.class? id = now.state.class? id) ∧
      (∀ {id}, now.state.IsFrozen id → (now.state.class? id).isSome →
        last.state.class? id = now.state.class? id) ∧
      ∀ {id}, now.state.IsData id → (last.state.class? id).isSome := by
  simp only [schedule, Step.updateChecked_bind_eq_ok] at h
  obtain ⟨cleared, hreset, undangled, hundangle, h⟩ := h
  rw [Step.current_bind] at h
  obtain ⟨count, placed, hplace, h⟩ := Step.bind_eq_ok.mp h
  simp only [Step.current_bind, Step.lift_bind_eq_ok, Step.note_bind] at h
  obtain ⟨system, hsystem, h⟩ := h
  obtain ⟨hframe, _, hfree, _⟩ := reset_undangle hg hreset hundangle
  have hundangled : undangled.Listed :=
    hg.of_outline_eq (outline_eq_of_skeleton_eq (skeleton_eq_of_frame_eq hframe))
  have hprepared : Prepared undangled placed.state := placeAllDangling_sound hundangled
    (fun hid => hfree ((isData_iff_of_frame_eq hframe).mp hid)) hplace
  have hbefore : placed.state.class? = now.state.class? := by
    rw [class?_placeAllDangling hplace, (undangleAll_sound hundangle).1.classes,
      class?_changeUnits hreset fun _ => rfl]
  obtain ⟨solved, hsolved, hclasses, hclassify⟩ : ∃ solved : Graph,
      solved.frame = placed.state.frame ∧ solved.class? = placed.state.class? ∧
        solved.dataUnits.foldlM (classify options) solved = .ok last.state := by
    split at h
    · simp only [Step.lift_bind_eq_ok, Step.updateChecked_bind_eq_ok,
        Step.updateChecked_eq_ok] at h
      obtain ⟨slots, _, solved, hsolution, final, hclassify, rfl⟩ := h
      exact ⟨solved, frame_placeAll hsolution, class?_placeAll hsolution, hclassify⟩
    · obtain ⟨final, hclassify, rfl⟩ := Step.updateChecked_eq_ok.mp h
      exact ⟨placed.state, rfl, rfl, hclassify⟩
  have hwhole : solved.frame = now.state.frame :=
    hsolved.trans (hprepared.frame.trans hframe)
  have hlisted : solved.Listed :=
    hg.of_outline_eq (outline_eq_of_skeleton_eq (skeleton_eq_of_frame_eq hwhole))
  obtain ⟨houtside, hfrozen, hsome⟩ := class?_classifyAll hclassify
  rw [← hclasses.trans hbefore]
  refine ⟨fun {id} hid => ?_, fun {id} hfixed hclass => ?_, fun {id} hid => ?_⟩
  · refine houtside id fun hmem => ?_
    exact ((isControl_iff_of_frame_eq hwhole).mpr hid).not_isData (hlisted.data.mp hmem)
  · exact hfrozen id ((isFrozen_of_frame_eq hwhole).mpr hfixed) hclass
  · exact hsome id (hlisted.data.mpr ((isData_iff_of_frame_eq hwhole).mpr hid))

end DataPath

end SlotScheduling
