import SlotScheduling.Proofs.Placement.DataPath
import SlotScheduling.Proofs.Placement.Reanchored

/-!
# What placing units leaves alone

Whether or not they end well, the passes change little: the control path gives
slots and anchors dependencies anew, the data path only decides what no frame shows.
-/

namespace SlotScheduling

namespace Graph

/-- The graph without slots and without the units that dangle. -/
def unplaced (g : Graph) : Graph × (UnitId → Option ValueClass) := (g.frame, g.class?)

variable {g g' : Graph}

theorem unplaced_changeUnit {id : UnitId} {change : ScheduleUnit → ScheduleUnit}
    (h : g.changeUnit id change = .ok g') (hframe : ∀ unit, (change unit).frame = unit.frame)
    (hclass : ∀ unit, (change unit).valueClass = unit.valueClass) : g'.unplaced = g.unplaced := by
  rw [unplaced, frame_changeUnit h hframe, class?_changeUnit h fun unit _ => hclass unit, unplaced]

theorem keeps_placeSlots (slots : List (UnitId × Nat)) :
    (Step.updateChecked (fun g : Graph => g.placeAll slots)).Keeps unplaced := by
  refine Step.keeps_updateChecked fun g g' h => ?_
  rw [unplaced, frame_placeAll h, class?_placeAll h, unplaced]

end Graph

open SlotScheduling.Graph

namespace ControlPath

theorem keeps_placeEntry : placeEntry.Keeps unplaced := by
  refine Step.keeps_updateChecked fun g g' h => ?_
  obtain ⟨_, _, h⟩ := Checked.bind_eq_ok.mp h
  split at h
  · exact unplaced_changeUnit h (fun _ => rfl) fun _ => rfl
  · obtain rfl := Checked.pure_eq_ok.mp h
    rfl

theorem keeps_placeInOrder (placed : List UnitId) (order : IssueOrder) :
    (placeInOrder placed order).Keeps unplaced := by
  unfold placeInOrder
  apply Step.Keeps.bind
  · refine Step.keeps_updateChecked fun g g' h => ?_
    rw [unplaced, frame_changeUnits h fun _ => rfl, class?_changeUnits h fun _ => rfl, unplaced]
  intro _
  apply Step.keeps_current.bind
  intro g
  apply (Step.keeps_lift _).bind
  intro system
  apply (Step.keeps_lift _).bind
  intro slots
  apply (Step.keeps_note _ _).bind
  exact fun _ => keeps_placeSlots slots

/-- What neither slots nor new anchors can spoil, the control path maintains. -/
theorem maintains_schedule {P : Graph → Prop}
    (hplaced : ∀ g g' : Graph, g'.unplaced = g.unplaced → P g → P g')
    (hreanchor : Graph.reanchor.Maintains P) : schedule.Maintains P := by
  have hkeeps : ∀ {α : Type} {step : Step Graph α}, step.Keeps unplaced → step.Maintains P :=
    fun hstep => hstep.maintains hplaced
  unfold schedule
  refine Step.Maintains.bind (hkeeps keeps_placeEntry) fun _ => ?_
  refine Step.Maintains.bind (hkeeps Step.keeps_current) fun g => ?_
  refine Step.Maintains.bind (Step.maintains_lift _) fun system => ?_
  refine Step.Maintains.bind (Step.maintains_note _ _) fun _ => ?_
  apply Step.maintains_ite
  · exact Step.maintains_pure _
  refine Step.Maintains.bind (Step.maintains_lift _) fun slots => ?_
  refine Step.Maintains.bind (hkeeps (keeps_placeSlots slots)) fun _ => ?_
  refine Step.Maintains.bind (hkeeps Step.keeps_current) fun g' => ?_
  refine Step.Maintains.bind (Step.maintains_lift _) fun order => ?_
  split
  · exact Step.Maintains.bind (hkeeps (keeps_placeInOrder _ order)) fun _ => hreanchor
  · exact hreanchor

end ControlPath

namespace DataPath

variable {g g' : Graph} {id : UnitId} {options : SchedulingOptions}

theorem frame_placeDangling {placed : Bool} (h : placeDangling g id = .ok (g', placed)) :
    g'.frame = g.frame := by
  obtain ⟨unit, _, hcases⟩ := placeDangling_cases h
  rcases hcases with ⟨_, hset⟩ | ⟨_, _, rfl⟩ | ⟨_, _, slot, _, hplace⟩
  · exact frame_changeUnit hset fun _ => rfl
  · rfl
  · exact frame_changeUnit hplace fun _ => rfl

theorem keeps_placeAllDangling (ids : List UnitId) : (placeAllDangling ids).Keeps frame := by
  apply Step.keeps_foldlM
  intro count id
  apply Step.keeps_of_maintains
  intro kept
  apply Step.maintains_current_bind
  intro g hg
  apply Step.maintains_lift_bind
  rintro ⟨g', placed⟩ hplace
  refine Step.Maintains.bind (Step.maintains_replace ?_) fun _ => Step.maintains_pure _
  exact (frame_placeDangling hplace).trans hg

theorem frame_classify (h : classify options g id = .ok g') : g'.frame = g.frame := by
  obtain ⟨unit, _, h⟩ := Checked.bind_eq_ok.mp h
  split at h
  · obtain rfl := Checked.pure_eq_ok.mp h
    rfl
  · obtain ⟨valueClass, _, h⟩ := Checked.bind_eq_ok.mp h
    exact frame_changeUnit h fun _ => rfl

/-- Place the units around a control path, once it is known which of them dangle. -/
def position (options : SchedulingOptions) : Step Graph PUnit := do
  let g ← Step.current
  let dangling ← placeAllDangling g.dataUnits
  let g ← Step.current
  let system ← build g options
  let free := system.unknowns.size
  Step.note .debug fun _ =>
    s!"{name}: block#{g.entryBlock} with {free} free units, {dangling} dangling"
  if 0 < free then
    let slots ← (if options.dataPathLate then system.latest else system.earliest).orMalformed
    Step.updateChecked (·.placeAll slots)

theorem schedule_eq (options : SchedulingOptions) : schedule options = (do
    Step.updateChecked resetData
    Step.updateChecked fun g => g.controlUnits.foldlM undangle g
    position options
    Step.updateChecked fun g => g.dataUnits.foldlM (classify options) g : Step Graph PUnit) := by
  simp only [schedule, position, bind_assoc]
  repeat' refine congrArg _ (funext fun _ => ?_)
  split
  · simp only [bind_assoc]
  · simp only [pure_bind]

theorem keeps_position (options : SchedulingOptions) : (position options).Keeps frame := by
  unfold position
  apply Step.keeps_current.bind
  intro g
  apply (keeps_placeAllDangling _).bind
  intro dangling
  apply Step.keeps_current.bind
  intro g'
  apply (Step.keeps_lift _).bind
  intro system
  apply (Step.keeps_note _ _).bind
  intro _
  split
  · apply (Step.keeps_lift _).bind
    intro slots
    exact Step.keeps_updateChecked fun g g' h => frame_placeAll h
  · exact Step.keeps_pure _

theorem keeps_schedule (options : SchedulingOptions) : (schedule options).Keeps frame := by
  rw [schedule_eq]
  apply Step.Keeps.bind
  · exact Step.keeps_updateChecked fun g g' h => frame_changeUnits h fun _ => rfl
  intro _
  apply Step.Keeps.bind
  · exact Step.keeps_updateChecked fun g g' h => (undangleAll_sound h).1.frame
  intro _
  apply (keeps_position options).bind
  intro _
  refine Step.keeps_updateChecked fun g g' h => ?_
  exact Checked.foldlM_induction (P := fun g' => g'.frame = g.frame)
    (fun _ _ _ _ hframe hround => (frame_classify hround).trans hframe) rfl h

end DataPath

end SlotScheduling
