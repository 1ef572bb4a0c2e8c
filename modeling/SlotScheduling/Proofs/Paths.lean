import SlotScheduling.Proofs.ControlPath
import SlotScheduling.Region

/-!
# Paths over the data path

While the control path is scheduled, the data-path units have no slots.  Still the
control unit at the end of a path over such units waits for the one at its start, as
long as none of them lies on a cycle of data-path units.
-/

namespace SlotScheduling

open SlotScheduling.Graph

namespace Graph

variable {g g' : Graph} {control id : UnitId} {span : Nat}

/-- Edges within one iteration lead from a control unit to a data-path unit, over
data-path units that lie on no cycle, with that sum of latencies. -/
inductive Carries (g : Graph) (control : UnitId) : UnitId → Nat → Prop
  | start {id : UnitId} {bundle : EdgeBundle} (hcontrol : g.IsControl control)
      (hdata : g.IsData id) (hopen : ¬g.Circular id)
      (hbundle : g.bundle? id control = some bundle) (hdistance : bundle.edge.distance = 0) :
      Carries g control id bundle.edge.latency
  | step {source id : UnitId} {span : Nat} {bundle : EdgeBundle}
      (hcarries : Carries g control source span) (hdata : g.IsData id) (hopen : ¬g.Circular id)
      (hbundle : g.bundle? id source = some bundle) (hdistance : bundle.edge.distance = 0) :
      Carries g control id (span + bundle.edge.latency)

theorem feeds_of_frame_eq (h : g'.frame = g.frame) : g'.Feeds = g.Feeds := by
  funext source user
  rw [Feeds, Feeds, isData_iff_of_frame_eq h, isData_iff_of_frame_eq h, dependsOn_iff_bundle?,
    dependsOn_iff_bundle?, bundle?_of_frame_eq h]

theorem Carries.of_frame_eq (h : g.Carries control id span) (hframe : g'.frame = g.frame) :
    g'.Carries control id span := by
  have hcircular : ∀ {id}, ¬g.Circular id → ¬g'.Circular id := by
    intro id
    rw [Circular, Circular, feeds_of_frame_eq hframe]
    exact fun hopen => hopen
  have hbundles : g'.bundle? = g.bundle? := bundle?_of_frame_eq hframe
  induction h with
  | start hcontrol hdata hopen hbundle hdistance =>
      exact .start ((isControl_iff_of_frame_eq hframe).mpr hcontrol)
        ((isData_iff_of_frame_eq hframe).mpr hdata) (hcircular hopen) (hbundles ▸ hbundle) hdistance
  | step _ hdata hopen hbundle hdistance ih =>
      exact .step ih ((isData_iff_of_frame_eq hframe).mpr hdata) (hcircular hopen)
        (hbundles ▸ hbundle) hdistance

/-- Within an iteration an edge asks for its latency, whatever the bounds. -/
theorem asks_of_bundle? {bounds : ControlBounds} {source : UnitId} {bundle : EdgeBundle}
    (hbundle : g.bundle? id source = some bundle) (hdistance : bundle.edge.distance = 0) :
    bounds.Asks g source id bundle.edge.latency := by
  obtain ⟨unit, hunit, hdep⟩ := exists_of_bundle? hbundle
  exact ⟨unit, bundle, hunit, hdep, DepEdge.offset?_of_distance_eq_zero hdistance _⟩

theorem Carries.spans (h : g.Carries control id span) (bounds : ControlBounds) :
    LookThrough.Spans g bounds control id span := by
  induction h with
  | start hcontrol hdata hopen hbundle hdistance =>
      exact .start hcontrol hdata hopen (asks_of_bundle? hbundle hdistance)
  | step _ hdata hopen hbundle hdistance ih =>
      rw [Int.natCast_add]
      exact .step ih hdata hopen (asks_of_bundle? hbundle hdistance)

end Graph

namespace ControlPath

variable {now last : Journaled Graph} {result : PUnit}

/-- Whichever unit was looked through first, the end of a path waits for its start. -/
theorem awaits_of_schedule
    (hfree : ∃ id ∈ now.state.controlUnits, id ≠ now.state.entryRoot ∧
      now.state.slot? id = none)
    (h : schedule now = .ok result last) {control source target : UnitId} {span s t : Nat}
    {bundle : EdgeBundle} (hcarries : now.state.Carries control source span)
    (htarget : target ∈ now.state.controlUnits)
    (hbundle : now.state.bundle? target source = some bundle) (hdistance : bundle.edge.distance = 0)
    (hs : last.state.slot? control = some s) (ht : last.state.slot? target = some t) :
    s + span + bundle.edge.latency ≤ t := by
  obtain ⟨g, bounds, hframe, _, _, _, _, placed, hplaced, hslots⟩ := exists_placed hfree h
  rw [hslots] at hs ht
  rw [← bundle?_of_frame_eq hframe] at hbundle
  have hasks : bounds.Asks g source target bundle.edge.latency := asks_of_bundle? hbundle hdistance
  obtain ⟨unit, bundle', hunit, hdep, hoffset⟩ := hasks
  have hlisted : g.controlUnits = now.state.controlUnits :=
    controlUnits_eq_of_outline_eq (outline_eq_of_skeleton_eq (skeleton_eq_of_frame_eq hframe))
  have hgap := hplaced.paths (hlisted ▸ htarget) hunit (Table.mem_entries_of_get?_eq_some hdep)
    hoffset ((hcarries.of_frame_eq hframe).spans bounds) hs ht
  omega

/-- A load feeds a chain of two data-path units, the first of which also waits for the
second one of the iteration before.  Each of the two feeds a control unit. -/
def turnedAround : Program where
  ops := ⟨#[.control "ldst" 7 .trivial, .data "add" 7 .trivial, .data "add" 7 .trivial,
    .control "ldst" 7 .trivial, .control "ldst" 7 .trivial]⟩
  oracle :=
    { dependences := fun op =>
        if op = 0 then some [.liveIn]
        else if op = 1 then some [.value 0 3, .loopCarried 2 0 1]
        else if op = 2 then some [.value 1 0]
        else if op = 3 then some [.value 1 0]
        else some [.value 2 0]
      stepsToFinish := fun _ => 0 }

/-- The second unit was looked through while the first one was still open, so that the
control unit it feeds does not wait for the load. -/
theorem awaits_not_turnedAround :
    ∃ g last, (do
        let g ← Lowering.buildBlock turnedAround ⟨7, [0, 1, 2, 3, 4]⟩ 1
        Prod.snd <$> Step.apart g (scheduleStraight {}) : Step PUnit Graph) ⟨⟨⟩, {}⟩ =
          .ok g last ∧
      (g.bundle? 2 1).map (·.edge) = some (.value 3) ∧
      (g.bundle? 3 2).map (·.edge) = some (.value 0) ∧
      (g.bundle? 5 3).map (·.edge) = some (.value 0) ∧
      g.slot? 1 = some 1 ∧ g.slot? 5 = some 1 := by
  have hsucceeds : (do
      let g ← Lowering.buildBlock turnedAround ⟨7, [0, 1, 2, 3, 4]⟩ 1
      Prod.snd <$> Step.apart g (scheduleStraight {}) : Step PUnit Graph).succeeds ⟨⟨⟩, {}⟩
        (fun g => decide ((g.bundle? 2 1).map (·.edge) = some (.value 3) ∧
          (g.bundle? 3 2).map (·.edge) = some (.value 0) ∧
          (g.bundle? 5 3).map (·.edge) = some (.value 0) ∧
          g.slot? 1 = some 1 ∧ g.slot? 5 = some 1)) = true := by
    decide +kernel
  obtain ⟨g, last, hrun, htest⟩ := Step.exists_of_succeeds hsucceeds
  exact ⟨g, last, hrun, of_decide_eq_true htest⟩

end ControlPath

end SlotScheduling
