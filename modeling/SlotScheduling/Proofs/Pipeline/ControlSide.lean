import SlotScheduling.Proofs.Pipeline.Fallback
import SlotScheduling.Proofs.Pipeline.Parallel
import SlotScheduling.Proofs.Placement.ControlSide

/-!
# Searches and control sides

A search for a pipelined schedule sees the control side of a graph alone.  It finds the same
interval and the same slots for all graphs whose control sides are the same once the schedule
starts over.
-/

namespace SlotScheduling

open SlotScheduling.Step SlotScheduling.Graph

/-! ## Lower bounds on the interval -/

namespace LoopArc

theorem ofUnits_controlSide (units : List ScheduleUnit) :
    ofUnits (units.map ScheduleUnit.controlSide) = ofUnits units := by
  simp only [ofUnits, List.zipIdx_map, List.flatMap_map, List.map_map]
  rfl

end LoopArc

namespace MinInterval

variable {g : Graph} {block : BlockId}

theorem resourceBound_controlSide : resourceBound g.controlSide block = resourceBound g block := by
  have hcontrolUnits : g.controlSide.controlUnits = g.controlUnits := rfl
  have hunits : g.controlUnits.mapM g.controlSide.unit =
      List.map ScheduleUnit.controlSide <$> g.controlUnits.mapM g.unit := by
    rw [← Checked.mapM_map]
    exact Checked.mapM_congr fun _ _ => unit_controlSide
  have hshared : sharedFuncUnits g.controlSide block = sharedFuncUnits g block := by
    simp only [sharedFuncUnits, hcontrolUnits, hunits, bind_map_left, List.filter_map,
      List.map_map]
    rfl
  rw [resourceBound, hshared, resourceBound]

theorem recurrences_controlSide : recurrences g.controlSide block = recurrences g block := by
  have hunits : g.controlSide.units.toList.filter (fun unit => decide (unit.block = block)) =
      (g.units.toList.filter fun unit => decide (unit.block = block)).map
        ScheduleUnit.controlSide := by
    simp only [controlSide_units, Array.toList_map, List.filter_map]
    rfl
  rw [recurrences, recurrences, hunits]
  simp only [List.length_map, LoopArc.ofUnits_controlSide]

end MinInterval

namespace PipelineSearch

variable {g : Graph}

theorem totalLatency_controlSide : totalLatency g.controlSide = totalLatency g := by
  simp only [totalLatency, controlSide_units, Array.toList_map, List.flatMap_map,
    ScheduleUnit.controlSide_deps]

end PipelineSearch

/-! ## Attempts and the record -/

section

variable {start g h : Graph} {P : Table BlockId Nat → Table BlockId Nat → Prop} {block : BlockId}
  {entrySlot : Nat}

theorem parallel_slot {σ τ : Type} {Q : σ → τ → Prop} (hsame : SameControl start P g h)
    {id : UnitId} (hid : g.IsControl id) :
    Parallel Q (ScheduleUnit.slot <$> (liftM (g.unit id) : Step σ ScheduleUnit))
      (ScheduleUnit.slot <$> (liftM (h.unit id) : Step τ ScheduleUnit)) := by
  obtain ⟨unit, hunit, hcontrol⟩ := hid
  obtain ⟨unit', hunit', hside⟩ := hsame.exists_unit hunit
  rw [unit_eq_ok.mpr hunit, unit_eq_ok.mpr hunit']
  exact fun _ _ _ hnow => ⟨(ScheduleUnit.slot_eq_of_controlSide_eq hside hcontrol).symm, hnow⟩

/-- A search records its interval and leaves the intervals of other blocks alone. -/
theorem PipelineSearch.intervals_of_run {now last : Journaled Graph} {interval : Nat}
    (hg : now.state.OfBlock block entrySlot) (h : run now = .ok interval last) :
    last.state.intervals = now.state.intervals.insert block interval := by
  have hrested := rested_of_run (fun hloop => hg.control.mpr (hg.loop hloop)) rfl h
  have hintervals : last.state.intervals =
      now.state.intervals.insert now.state.entryBlock interval := congrArg Graph.intervals hrested
  rwa [hg.entryBlock] at hintervals

/-- The tables are the same but for the interval of the block. -/
def AgreeBut (block : BlockId) (intervals intervals' : Table BlockId Nat) : Prop :=
  intervals'.erase block = intervals.erase block

theorem agreeBut_insert (intervals : Table BlockId Nat) (interval : Nat) :
    AgreeBut block intervals (intervals.insert block interval) :=
  Table.erase_insert intervals block interval

theorem AgreeBut.insert_eq {intervals intervals' : Table BlockId Nat}
    (h : AgreeBut block intervals intervals') (interval : Nat) :
    intervals'.insert block interval = intervals.insert block interval := by
  rw [Table.insert, h, Table.insert]

variable (hstart : start.OfBlock block entrySlot) (hexit : start.HasExit)

include hstart

theorem Graph.SameControl.startSlot_eq (hsame : SameControl start P g h) :
    h.startSlot block = g.startSlot block := by
  have hg := hstart.of_skeleton_eq hsame.skeleton
  have hh := hstart.of_skeleton_eq hsame.skeleton'
  obtain ⟨unit, hunit, hcontrol⟩ := hg.root
  obtain ⟨unit', hunit', hside⟩ := hsame.exists_unit hunit
  have hroot : h.units[h.entryRoot]? = some unit' := hunit'
  simp only [startSlot, hg.entry, hh.entry, unit_eq_ok.mpr hunit, unit_eq_ok.mpr hroot,
    Checked.ok_bind, ScheduleUnit.slot_eq_of_controlSide_eq hside hcontrol]

theorem Graph.SameControl.totalSlot_eq (hsame : SameControl start P g h) :
    h.totalSlot block = g.totalSlot block := by
  have hg := hstart.of_skeleton_eq hsame.skeleton
  simp only [totalSlot, hsame.startSlot_eq hstart, hsame.endSlot_eq hg.toListed]

/-- Once the interval is recorded, the moves are delayed alike. -/
theorem parallel_record (interval : Nat) :
    Parallel (SameControl start (AgreeBut block))
      (do Step.update (·.setInterval block interval); delayPhis)
      (do Step.update (·.setInterval block interval); delayPhis) := by
  intro threshold now now' hnow
  rw [Step.update_bind, Step.update_bind]
  have hrecorded : Alike threshold (SameControl start fun t t' => t' = t)
      ⟨now.state.setInterval block interval, now.journal⟩
      ⟨now'.state.setInterval block interval, now'.journal⟩ :=
    ⟨⟨hnow.state.skeleton, hnow.state.intervals.insert_eq interval, hnow.state.side⟩, hnow.left,
      hnow.right⟩
  have hdelayed := parallel_delayPhis hstart (fun heq => heq) hrecorded
  exact hdelayed.mono fun hsame => hsame.mono fun heq => congrArg (Table.erase · block) heq

namespace PipelineSearch

/-- What was found is recorded alike. -/
theorem parallel_commit :
    Parallel (OnRelated (SameControl start (AgreeBut block))) commit commit := by
  unfold commit
  refine parallel_current_bind fun search search' hsame => ?_
  have hg := hstart.of_skeleton_eq hsame.graph.skeleton
  have hh := hstart.of_skeleton_eq hsame.graph.skeleton'
  have hloopOp : search'.graph.loopOp = search.graph.loopOp :=
    hsame.graph.eq_of_controlSide fun _ _ => rfl
  simp only [hsame.interval, hg.entryBlock, hh.entryBlock, hg.entrySlot, hh.entrySlot, hloopOp,
    hsame.graph.endSlot_eq hg.toListed]
  apply (parallel_lift _).bind
  intro expected
  split
  all_goals
    apply Parallel.bind
    · first
        | exact parallel_pure none
        | exact parallel_slot hsame.graph (hg.loop ‹_›)
    intro slot
    apply (parallel_lift _).bind
    intro last
    apply parallel_ite
    · exact parallel_fail_bind _ _ _
    apply (parallel_onGraph (parallel_record hstart search.interval)).bind
    intro _
    apply (parallel_records _).bind
    intro recorded
    apply parallel_ite
    · refine parallel_current_bind fun found found' hfound => ?_
      rw [hfound.graph.totalSlot_eq hstart]
      apply (parallel_lift _).bind
      intro total
      exact (parallel_note _ _ _).bind fun _ => parallel_pure _
    · exact parallel_pure _

include hexit

/-- Graphs with one control side are alike for a search. -/
theorem congruent_controlSide : Congruent (SameControl start P) where
  entryBlock := fun hsame => hsame.eq_of_controlSide fun _ _ => rfl
  bound := fun block hsame =>
    ⟨hsame.eq_of_controlSide (f := (MinInterval.resourceBound · block)) fun _ _ =>
        MinInterval.resourceBound_controlSide,
      hsame.eq_of_controlSide (f := (MinInterval.recurrences · block)) fun _ _ =>
        MinInterval.recurrences_controlSide⟩
  order := fun hsame => hsame.order_eq hstart
  reset := parallel_resetControl hstart
  place := by
    intro bounds hpipelining horder
    refine parallel_tryPlace (fun hsame => ?_) fun hsame hsystem hslots => ?_
    · refine hsame.build_eq hstart hexit (Or.inl hpipelining) fun order hsome chain hchain => ?_
      obtain ⟨_, _, hsame', hbuild⟩ := horder order hsome
      exact hsame'.within hstart hbuild hchain
    · exact parallel_placeAll (isControl_of_earliest hstart hsame.skeleton hsystem hslots)

/-- Searches begin alike if restarts leave graphs with one control side. -/
theorem start_eq_ok_of_rested {threshold : Option Level} {now now' middle : Journaled Graph}
    {search : PipelineSearch}
    (hnow : Alike threshold (fun g h => SameControl start P g.rested h.rested) now now')
    (hrestartable : now'.state.Restartable) (h : PipelineSearch.start now = .ok search middle) :
    ∃ search' middle', PipelineSearch.start now' = .ok search' middle' ∧
      OnRelated (SameControl start P) search search' ∧
      Alike threshold (SameControl start P) middle middle' := by
  have hsame := hnow.state
  have hskeleton : now'.state.skeleton = now.state.skeleton := by
    rw [← skeleton_rested, hsame.skeleton', ← hsame.skeleton, skeleton_rested]
  have hpipelined : now'.state.isPipelined = now.state.isPipelined :=
    eq_of_skeleton_eq (·.isPipelined) hskeleton fun _ => rfl
  have hroot := exitRoot_of_skeleton_eq hskeleton
  have hentrySlot : now'.state.rested.entrySlot = now.state.rested.entrySlot :=
    hsame.eq_of_controlSide fun _ _ => rfl
  have hlatency : totalLatency now'.state.rested = totalLatency now.state.rested :=
    hsame.eq_of_controlSide fun _ _ => totalLatency_controlSide
  have hcontrolUnits : now'.state.rested.controlUnits = now.state.rested.controlUnits :=
    hsame.eq_of_controlSide fun _ _ => rfl
  have hbuild := hsame.build_eq hstart hexit
    (Or.inl rfl : ({ pipelining := true } : ControlBounds).Settles P) fun _ hsome => by cases hsome
  unfold PipelineSearch.start at h ⊢
  rw [Step.current_bind] at h ⊢
  rw [hpipelined, hroot]
  rcases Step.ite_eq_ok.mp h with ⟨_, h⟩ | ⟨hlooped, h⟩
  · exact absurd h Step.fail_bind_ne_ok
  rw [if_neg hlooped]
  cases hexitRoot : now.state.exitRoot with
  | none =>
      rw [hexitRoot] at h
      exact absurd h Step.fail_ne_ok
  | some exit =>
      rw [hexitRoot] at h
      obtain ⟨_, cleared, hreset, h⟩ := Step.bind_eq_ok.mp h
      obtain ⟨_, rfl⟩ := resetControl_zero_eq_ok_iff.mp hreset
      simp only [Step.current_bind, Step.lift_bind_eq_ok, Step.note_bind] at h
      obtain ⟨system, hsystem, slots, hslots, latencies, hlatencies, longest, hlongest, larger,
        hlarger, ceiling, hceiling, h⟩ := h
      obtain ⟨rfl, rfl⟩ := Step.pure_eq_ok.mp h
      rw [← hbuild] at hsystem
      rw [← hlatency] at hlatencies
      rw [← hentrySlot] at hlongest
      rw [← hcontrolUnits] at hlarger
      simp only [Step.bind_of_eq_ok (resetControl_zero_eq_ok_iff.mpr ⟨hrestartable, rfl⟩),
        Step.current_bind, Step.lift_bind_of_eq_ok hsystem, Step.lift_bind_of_eq_ok hslots,
        Step.lift_bind_of_eq_ok hlatencies, Step.lift_bind_of_eq_ok hlongest,
        Step.lift_bind_of_eq_ok hlarger, Step.lift_bind_of_eq_ok hceiling, Step.note_bind]
      refine ⟨_, _, rfl, ⟨hsame, rfl, ?_, rfl⟩, hsame, ?_, ?_⟩
      · rw [hentrySlot]
      · exact (Journal.threshold_note _ _ _).trans hnow.left
      · exact (Journal.threshold_note _ _ _).trans hnow.right

/-- A search finds one interval for graphs that restarts leave with one control side, and the same
slots. -/
theorem run_eq_ok_of_rested {threshold : Option Level} {now now' last : Journaled Graph}
    {interval : Nat}
    (hnow : Alike threshold (fun g h => SameControl start (AgreeBut block) g.rested h.rested)
      now now')
    (hrestartable : now'.state.Restartable) (h : run now = .ok interval last) :
    ∃ last', run now' = .ok interval last' ∧
      Alike threshold (SameControl start fun t t' => t' = t) last last' := by
  obtain ⟨search, middle, hsearch, hcomplete⟩ := Step.bind_eq_ok.mp h
  obtain ⟨inner, hinner, rfl⟩ := Step.focus_eq_ok.mp hcomplete
  obtain ⟨search', middle', hsearch', hsame, hmiddle⟩ :=
    start_eq_ok_of_rested hstart hexit hnow hrestartable hsearch
  have hbegun : Alike threshold (OnRelated (SameControl start (AgreeBut block)))
      ⟨{ search with graph := middle.state }, middle.journal⟩
      ⟨{ search' with graph := middle'.state }, middle'.journal⟩ :=
    ⟨{ hsame with graph := hmiddle.state }, hmiddle.left, hmiddle.right⟩
  have hparallel := parallel_complete (congruent_controlSide hstart hexit) (parallel_commit hstart)
  obtain ⟨inner', hinner', hlast⟩ := hparallel.of_eq_ok hbegun hinner
  have hrun' : run now' = .ok interval ⟨inner'.state.graph, inner'.journal⟩ :=
    Step.bind_eq_ok.mpr ⟨search', middle', hsearch', Step.focus_eq_ok.mpr ⟨inner', hinner', rfl⟩⟩
  refine ⟨_, hrun', ⟨?_, hlast.left, hlast.right⟩⟩
  have hskeletons : ∀ {g : Graph}, g.rested.skeleton = start.skeleton →
      g.OfBlock block entrySlot := fun {g} hskeleton =>
    hstart.of_skeleton_eq ((skeleton_rested g).symm.trans hskeleton)
  refine ⟨hlast.state.graph.skeleton, ?_, hlast.state.graph.side⟩
  rw [intervals_of_run (hskeletons hnow.state.skeleton) h,
    intervals_of_run (hskeletons hnow.state.skeleton') hrun']
  exact hnow.state.intervals.insert_eq interval

end PipelineSearch

end

end SlotScheduling
