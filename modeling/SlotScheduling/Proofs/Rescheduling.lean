import SlotScheduling.Proofs.Graph.Built
import SlotScheduling.Proofs.Graph.Verified
import SlotScheduling.Proofs.Legality
import SlotScheduling.Proofs.Pipeline.ControlSide
import SlotScheduling.Proofs.Placement.Unclassed
import SlotScheduling.Proofs.Reruns
import SlotScheduling.Proofs.Totality

/-!
# Blocks that are scheduled again

A restart undoes all that was decided for the control path but the interval on record, which a
search for another one does not look at, and the data path decides anew all that is its own.  So a
block that is scheduled again comes out the same: as straight-line code, as a pipelined loop, and as
a loop on which a search has given up.
-/

namespace SlotScheduling

open SlotScheduling.Graph

variable {start g h : Graph} {block : BlockId} {entrySlot : Nat} {options : SchedulingOptions}
  {threshold : Option Level} {now middle last : Journaled Graph} {result : PUnit}
  {P : Table BlockId Nat → Table BlockId Nat → Prop}

/-! ## Restarts and control sides -/

namespace Graph

section

variable {id : UnitId} {unit : ScheduleUnit} (hg : g.OfBlock block entrySlot)

include hg

theorem OfBlock.clearUnit_controlSide (hunit : g.units[id]? = some unit) :
    g.controlSide.clearUnit id unit.controlSide = (g.clearUnit id unit).controlSide := by
  have hcontrol : g.IsControl id → unit.control = true := by
    rintro ⟨unit', hunit', hcontrol⟩
    exact Option.some.inj (hunit.symm.trans hunit') ▸ hcontrol
  have hroot : g.controlSide.entryRoot = g.entryRoot := rfl
  have hentrySlot : g.controlSide.entrySlot = g.entrySlot := rfl
  have hcontrolUnits : g.controlSide.controlUnits = g.controlUnits := rfl
  simp only [clearUnit, hroot, hentrySlot, hcontrolUnits]
  split
  next heq => exact ScheduleUnit.place_controlSide (hcontrol (heq ▸ hg.root))
  next =>
    split
    next hmem => exact ScheduleUnit.unplace_controlSide (hcontrol (hg.control.mp hmem))
    next => rfl

theorem OfBlock.restUnit_controlSide (hunit : g.units[id]? = some unit) :
    g.controlSide.restUnit id unit.controlSide = (g.restUnit id unit).controlSide := by
  have hmoves : ∀ source, g.controlSide.IsMove source ↔ g.IsMove source := by
    intro source
    simp only [IsMove, getElem?_controlSide]
    cases g.units[source]? <;> simp
  have hexit : g.controlSide.exitRoot = g.exitRoot := rfl
  simp only [restUnit, hexit, hg.clearUnit_controlSide hunit, widenUnit_congr hmoves]
  split <;> rfl

/-- A restart does not look at what only the data path decides. -/
theorem OfBlock.rested_controlSide : g.controlSide.rested = g.rested.controlSide := by
  simp only [rested, controlSide]
  congr 1
  refine Array.ext_getElem? fun id => ?_
  rw [Array.getElem?_mapIdx, Array.getElem?_map, Array.getElem?_map, Array.getElem?_mapIdx]
  cases hunit : g.units[id]? with
  | none => rfl
  | some unit => exact congrArg some (hg.restUnit_controlSide hunit)

end

theorem OfBlock.rested_of_controlSide_eq (hg : g.OfBlock block entrySlot)
    (hside : h.controlSide = g.controlSide) : h.rested.controlSide = g.rested.controlSide := by
  have hskeleton : h.skeleton = g.skeleton := by
    rw [← skeleton_controlSide, hside, skeleton_controlSide]
  rw [← (hg.of_skeleton_eq hskeleton).rested_controlSide, hside, hg.rested_controlSide]

end Graph

/-- The data path decides nothing on the control side. -/
theorem DataPath.controlSide_schedule (hg : now.state.Listed)
    (h : schedule options now = .ok result last) :
    last.state.controlSide = now.state.controlSide :=
  controlSide_eq ((keeps_schedule options).of_eq_ok h) (schedule_slots hg h).1
    (schedule_classes hg h).1

namespace Graph

/-! ## Control paths that are scheduled again -/

/-- No interval is on record. -/
def Unrecorded (intervals intervals' : Table BlockId Nat) : Prop :=
  intervals = {} ∧ intervals' = {}

theorem Unrecorded.eq {intervals intervals' : Table BlockId Nat}
    (h : Unrecorded intervals intervals') : intervals' = intervals :=
  h.2.trans h.1.symm

/-- Straight-line code comes out the same for graphs that restarts leave with one control side. -/
theorem scheduleStraight_eq_ok_of_rested (hstart : start.OfBlock block entrySlot)
    (hexit : start.HasExit) {now' : Journaled Graph}
    (hnow : Alike threshold (fun g h => SameControl start Unrecorded g.rested h.rested) now now')
    (hrestartable : now'.state.Restartable) (h : scheduleStraight options now = .ok result last) :
    ∃ last', scheduleStraight options now' = .ok result last' ∧
      Alike threshold (SameControl start Unrecorded) last last' := by
  obtain ⟨_, _, hreset, h⟩ := Step.bind_eq_ok.mp h
  obtain ⟨_, rfl⟩ := resetControl_zero_eq_ok_iff.mp hreset
  rw [scheduleStraight, Step.bind_of_eq_ok (resetControl_zero_eq_ok_iff.mpr ⟨hrestartable, rfl⟩)]
  have hcontrol : Step.Parallel (SameControl start Unrecorded)
      (Strategy.run .controlPath options) (Strategy.run .controlPath options) := by
    apply (Step.parallel_note _ _ _).bind
    exact fun _ => ControlPath.parallel_schedule hstart hexit id
  have hrested : Alike threshold (SameControl start Unrecorded)
      ⟨now.state.rested, now.journal⟩ ⟨now'.state.rested, now'.journal⟩ :=
    ⟨hnow.state, hnow.left, hnow.right⟩
  exact hcontrol.of_eq_ok hrested h

/-- A restart undoes straight-line code. -/
theorem rested_of_scheduleStraight (hg : now.state.IsAnchored)
    (h : scheduleStraight options now = .ok result last) :
    last.state.rested = now.state.rested := by
  obtain ⟨_, started, hreset, h⟩ := Step.bind_eq_ok.mp h
  have hcontrol : (Strategy.run .controlPath options).Maintains
      fun h => h.rested = now.state.rested :=
    (Step.maintains_note _ _).bind fun _ => ControlPath.maintains_rested_schedule hg
  exact hcontrol.of_eq_ok (rested_of_resetControl_zero hreset) h

/-! ## Blocks that are scheduled again -/

/-- A block that passes its checks, and ends at an exit. -/
structure Checkable (block : BlockId) (entrySlot : Nat) (g : Graph) : Prop
    extends OfBlock block entrySlot g where
  exit : g.HasExit
  exitLead : ∀ {exit : UnitId} {unit : ScheduleUnit}, g.exitRoot = some exit →
    g.units[exit]? = some unit → unit.lead.isEntry = false
  verified : g.verify = .ok ⟨⟩

theorem Checkable.disablePipeline (hg : g.Checkable block entrySlot) :
    g.disablePipeline.Checkable block entrySlot where
  toOfBlock := hg.toOfBlock.disablePipeline
  exit := hg.exit
  exitLead := hg.exitLead
  verified := hg.verified

/-- What a restart makes of a block with a data path is what it makes of its control path. -/
theorem rested_of_dataPath (hstart : start.Checkable block entrySlot)
    (hnow : SameControl start P g.rested now.state.rested) (hslots : now.state.HasControlSlots)
    (h : DataPath.schedule options now = .ok result last) :
    SameControl start P g.rested last.state.rested ∧ last.state.verify = .ok ⟨⟩ ∧
      last.state.skeleton = start.skeleton := by
  have hskeleton : now.state.skeleton = start.skeleton :=
    (skeleton_rested _).symm.trans hnow.skeleton'
  have hg := hstart.toOfBlock.of_skeleton_eq hskeleton
  have hframe : last.state.frame = now.state.frame := (DataPath.keeps_schedule options).of_eq_ok h
  have hkept : last.state.skeleton = start.skeleton :=
    (skeleton_eq_of_frame_eq hframe).trans hskeleton
  have hside : last.state.rested.controlSide = now.state.rested.controlSide :=
    hg.rested_of_controlSide_eq (DataPath.controlSide_schedule hg.toListed h)
  have hintervals : last.state.rested.intervals = now.state.rested.intervals := by
    have hintervals := intervals_of_frame_eq hframe
    exact hintervals
  have hgapless := gapless_dataPath hg.toListed hslots h
  refine ⟨⟨hnow.skeleton, hintervals ▸ hnow.intervals, hside.trans hnow.side⟩, ?_, hkept⟩
  exact verify_of_skeleton_eq hstart.toListed hkept (fun hid => hgapless.slots hid.lt_size)
    hstart.exitLead hstart.verified

/-- A block comes out the same if its control path does, once a restart has undone what was
decided for it. -/
theorem exists_again_of_control (hstart : start.Checkable block entrySlot)
    (hmiddle : Alike threshold (fun g h => SameControl start P g.rested h.rested) now middle)
    (hslots : middle.state.HasControlSlots)
    (hdata : Strategy.run .dataPath options middle = .ok result last)
    (hcontrol : ∀ {later : Journaled Graph},
      Alike threshold (fun g h => SameControl start P g.rested h.rested) now later →
      later.state.Restartable →
      ∃ middle', (if start.isPipelined = true then schedulePipelined options
          else scheduleStraight options) later = .ok ⟨⟩ middle' ∧
        Alike threshold (SameControl start fun t t' => t' = t) middle middle') :
    ∃ again, schedule options last = .ok result again ∧ again.state = last.state := by
  obtain ⟨noted, hstate, hjournal, hrun⟩ := exists_dataPath hdata
  obtain ⟨hrested, hverify, hskeleton⟩ := rested_of_dataPath (g := now.state) hstart
    (hstate ▸ hmiddle.state) (hstate ▸ hslots) hrun
  have hthreshold : noted.journal.threshold = threshold := hjournal.trans hmiddle.right
  obtain ⟨_, _, hlast⟩ := (DataPath.ignores_schedule options).of_eq_ok
    ⟨rfl, hthreshold, hthreshold⟩ hrun
  obtain ⟨middle', hcontrol, hsame⟩ := hcontrol ⟨hrested, hmiddle.left, hlast.left⟩
    ((hstart.toOfBlock.of_skeleton_eq hskeleton).restartable
      (hstart.exit.of_skeleton_eq hskeleton))
  have hnoted : Alike threshold (SameControl start fun t t' => t' = t) noted
      ⟨middle'.state, middle'.journal.note .debug fun _ =>
        s!"running {Strategy.dataPath.name}"⟩ :=
    ⟨hstate ▸ hsame.state, hthreshold, (Journal.threshold_note _ _ _).trans hsame.right⟩
  obtain ⟨again, hagain, hfinished⟩ :=
    DataPath.schedule_eq_ok_of_sameControl hstart.toOfBlock hnoted hrun
  refine ⟨again, schedule_eq_ok_iff.mpr ⟨hverify, middle', ?_, ?_⟩, hfinished.state.symm⟩
  · rw [isPipelined_of_skeleton_eq hskeleton]
    exact hcontrol
  · rw [Strategy.run, Step.note_bind]
    exact hagain

/-- Straight-line code comes out the same once more. -/
theorem exists_again_of_scheduleStraight (hstart : start.Checkable block entrySlot)
    (hskeleton : now.state.skeleton = start.skeleton) (hstraight : start.isPipelined = false)
    (hnone : now.state.intervals = {}) (hcontrol : scheduleStraight options now = .ok ⟨⟩ middle)
    (hdata : Strategy.run .dataPath options middle = .ok result last) :
    ∃ again, schedule options last = .ok result again ∧ again.state = last.state := by
  have hg := hstart.toOfBlock.of_skeleton_eq hskeleton
  have hexit := hstart.exit.of_skeleton_eq hskeleton
  have hrested := rested_of_scheduleStraight hg.isAnchored hcontrol
  have hintervals : middle.state.intervals = {} :=
    (congrArg Prod.snd (setup_of_scheduleStraight hg hexit hcontrol)).trans hnone
  obtain ⟨_, _, hthreshold⟩ := (ignores_scheduleStraight options).of_eq_ok ⟨rfl, rfl, rfl⟩ hcontrol
  have hmiddle : Alike now.journal.threshold
      (fun g h => SameControl start Unrecorded g.rested h.rested) now middle :=
    ⟨⟨(skeleton_rested _).trans hskeleton, ⟨hnone, hintervals⟩, congrArg controlSide hrested⟩, rfl,
      hthreshold.left⟩
  refine exists_again_of_control hstart hmiddle (hasControlSlots_scheduleStraight hcontrol) hdata
    fun hlater hrestartable => ?_
  rw [if_neg (Bool.eq_false_iff.mp hstraight)]
  obtain ⟨middle', hcontrol', hsame⟩ := scheduleStraight_eq_ok_of_rested hstart.toOfBlock
    hstart.exit hlater hrestartable hcontrol
  exact ⟨middle', hcontrol', hsame.state.mono Unrecorded.eq, hsame.left, hsame.right⟩

/-- A pipelined loop comes out the same once more. -/
theorem exists_again_of_run {interval : Nat} (hstart : now.state.Checkable block entrySlot)
    (hpipelined : now.state.isPipelined = true)
    (hrun : PipelineSearch.run now = .ok interval middle)
    (hdata : Strategy.run .dataPath options middle = .ok result last) :
    ∃ again, schedule options last = .ok result again ∧ again.state = last.state := by
  have hrested := PipelineSearch.rested_of_run
    (fun hloop => hstart.control.mpr (hstart.loop hloop)) rfl hrun
  have hintervals : AgreeBut block now.state.intervals middle.state.intervals := by
    rw [PipelineSearch.intervals_of_run hstart.toOfBlock hrun]
    exact agreeBut_insert _ _
  obtain ⟨_, _, hthreshold⟩ := PipelineSearch.ignores_run.of_eq_ok ⟨rfl, rfl, rfl⟩ hrun
  have hmiddle : Alike now.journal.threshold
      (fun g h => SameControl now.state (AgreeBut block) g.rested h.rested) now middle :=
    ⟨⟨skeleton_rested _, hintervals, (congrArg controlSide hrested :)⟩, rfl, hthreshold.left⟩
  refine exists_again_of_control hstart hmiddle (PipelineSearch.hasControlSlots_run hrun) hdata
    fun {later} hlater hrestartable => ?_
  rw [if_pos hpipelined]
  have hnoted : Alike now.journal.threshold
      (fun g h => SameControl now.state (AgreeBut block) g.rested h.rested) now
      ⟨later.state, later.journal.note .debug fun _ => s!"running {Strategy.pipeline.name}"⟩ :=
    ⟨hlater.state, hlater.left, (Journal.threshold_note _ _ _).trans hlater.right⟩
  obtain ⟨middle', hrun', hsame⟩ := PipelineSearch.run_eq_ok_of_rested hstart.toOfBlock hstart.exit
    hnoted hrestartable hrun
  exact ⟨middle', schedulePipelined_of_run hrun', hsame⟩

/-- A block that passes its checks comes out the same when it is scheduled again. -/
theorem Checkable.exists_again (hstart : now.state.Checkable block entrySlot)
    (hnone : now.state.intervals = {}) (h : schedule options now = .ok result last) :
    ∃ again, schedule options last = .ok result again ∧ again.state = last.state := by
  obtain ⟨_, middle, hcontrol, hdata⟩ := schedule_eq_ok_iff.mp h
  cases hpipelined : now.state.isPipelined with
  | false =>
      rw [if_neg (Bool.eq_false_iff.mp hpipelined)] at hcontrol
      exact exists_again_of_scheduleStraight hstart rfl hpipelined hnone hcontrol hdata
  | true =>
      rw [if_pos hpipelined] at hcontrol
      obtain ⟨noted, hnoted, ⟨_, hrun⟩ | ⟨_, _, _, failed, hrun, given, hgiven, hstraight⟩⟩ :=
        schedulePipelined_cases hcontrol
      all_goals rw [← hnoted] at hstart hnone hpipelined
      · exact exists_again_of_run hstart hpipelined hrun hdata
      · -- What is left of the search is not pipelined any more.
        have hrested := PipelineSearch.rested_of_run_eq_error
          (fun hloop => hstart.control.mpr (hstart.loop hloop)) rfl hrun
          (Failure.not_isFinal_searchExhausted _ _ _)
        have hskeleton : given.state.skeleton = noted.state.disablePipeline.skeleton := by
          rw [hgiven]
          exact (congrArg Graph.disablePipeline (skeleton_eq_of_rested_eq hrested) :)
        have hintervals : given.state.intervals = {} := by
          rw [hgiven]
          exact (congrArg Graph.intervals hrested :).trans hnone
        exact exists_again_of_scheduleStraight hstart.disablePipeline hskeleton rfl hintervals
          hstraight hdata

end Graph

/-! ## Built blocks -/

section

variable {σ : Type} {program : Program} {basic : BasicBlock} {before built : Journaled σ}

theorem Lowering.checkable_buildBlock
    (hbuild : buildBlock program basic entrySlot before = .ok g built)
    (hverify : g.verify = .ok ⟨⟩) : g.Checkable basic.id entrySlot := by
  obtain ⟨hg, hexit⟩ := Lowering.ofBlock_buildBlock hbuild
  refine ⟨hg, hexit, fun hroot hunit => ?_, hverify⟩
  rw [lead_of_buildBlock hbuild hroot hunit]
  rfl

/-- A block that was built on its own comes out the same when it is scheduled again: nothing of the
graph changes, neither slots and classes, nor which units dangle, nor the dependencies, nor the
interval on record. -/
theorem Graph.schedule_schedule {journal : Journal}
    (hbuild : Lowering.buildBlock program basic entrySlot before = .ok g built)
    (h : schedule options ⟨g, journal⟩ = .ok result last) :
    ∃ again, schedule options last = .ok result again ∧ again.state = last.state := by
  obtain ⟨hverify, _⟩ := schedule_eq_ok_iff.mp h
  exact (Lowering.checkable_buildBlock hbuild hverify).exists_again
    (Lowering.intervals_buildBlock hbuild) h

end

/-- One loop that is pipelined, and another one on which the search gives up. -/
theorem Graph.schedule_schedule_loops :
    (∃ g built last again,
      (Lowering.buildBlock accessLoop ⟨7, [0, 1, 2, 3]⟩ 3 : Step PUnit Graph) ⟨⟨⟩, {}⟩ =
        .ok g built ∧
      schedule {} ⟨g, {}⟩ = .ok ⟨⟩ last ∧ (last.state.interval? 7).isSome = true ∧
      schedule {} last = .ok ⟨⟩ again ∧ again.state = last.state) ∧
    ∃ g built last again,
      (Lowering.buildBlock PipelineSearch.lateBranch ⟨0, [0, 1, 2]⟩ 1 : Step PUnit Graph)
        ⟨⟨⟩, {}⟩ = .ok g built ∧
      g.isPipelined = true ∧ schedule {} ⟨g, {}⟩ = .ok ⟨⟩ last ∧
      last.state.isPipelined = false ∧
      schedule {} last = .ok ⟨⟩ again ∧ again.state = last.state := by
  have hruns : ∀ {build : Step PUnit Graph} {test : Graph → Graph → Bool},
      build.succeeds ⟨⟨⟩, {}⟩ (fun g =>
        (schedule {} >>= fun _ => Step.current).succeeds ⟨g, {}⟩ (test g)) = true →
      ∃ g built last, build ⟨⟨⟩, {}⟩ = .ok g built ∧ schedule {} ⟨g, {}⟩ = .ok ⟨⟩ last ∧
        test g last.state = true := by
    intro build test hsucceeds
    obtain ⟨g, built, hbuild, hsucceeds⟩ := Step.exists_of_succeeds hsucceeds
    obtain ⟨_, _, hrun, htest⟩ := Step.exists_of_succeeds hsucceeds
    obtain ⟨_, last, hschedule, hcurrent⟩ := Step.bind_eq_ok.mp hrun
    obtain ⟨rfl, _⟩ := Step.current_eq_ok.mp hcurrent
    exact ⟨g, built, last, hbuild, hschedule, htest⟩
  constructor
  · have hsucceeds : (Lowering.buildBlock accessLoop ⟨7, [0, 1, 2, 3]⟩ 3 :
        Step PUnit Graph).succeeds ⟨⟨⟩, {}⟩ (fun g =>
          (schedule {} >>= fun _ => Step.current).succeeds ⟨g, {}⟩ (fun h =>
            (h.interval? 7).isSome)) = true := by
      decide +kernel
    obtain ⟨g, built, last, hbuild, hschedule, hinterval⟩ := hruns hsucceeds
    obtain ⟨again, hagain, hsame⟩ := schedule_schedule hbuild hschedule
    exact ⟨g, built, last, again, hbuild, hschedule, hinterval, hagain, hsame⟩
  · have hsucceeds : (Lowering.buildBlock PipelineSearch.lateBranch ⟨0, [0, 1, 2]⟩ 1 :
        Step PUnit Graph).succeeds ⟨⟨⟩, {}⟩ (fun g =>
          (schedule {} >>= fun _ => Step.current).succeeds ⟨g, {}⟩ (fun h =>
            decide (g.isPipelined = true ∧ h.isPipelined = false))) = true := by
      decide +kernel
    obtain ⟨g, built, last, hbuild, hschedule, htest⟩ := hruns hsucceeds
    obtain ⟨hloop, hstraight⟩ := of_decide_eq_true htest
    obtain ⟨again, hagain, hsame⟩ := schedule_schedule hbuild hschedule
    exact ⟨g, built, last, again, hbuild, hloop, hschedule, hstraight, hagain, hsame⟩

end SlotScheduling
