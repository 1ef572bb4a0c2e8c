import SlotScheduling.Proofs.Graph.Closed
import SlotScheduling.Proofs.Graph.Lowered

/-!
# Built blocks

A block that is built on its own is lowered into an empty graph, which is closed then.
One of the dependencies that the oracle records for two of its operations stands as the
edge between their units, and each of the others spans more iterations or asks for no
more slots.
-/

namespace SlotScheduling.Lowering

open SlotScheduling.Graph

variable {σ : Type} {program : Program} {basic : BasicBlock} {entrySlot : Nat} {g low : Graph}
  {now last : Journaled σ}

/-- A block that is built on its own is lowered into an empty graph. -/
theorem lowers_start {l : Lowering}
    (h : lowerBlock program (start basic.id entrySlot) basic now = .ok l last) :
    Lowers program basic (Graph.start basic.id entrySlot) l.graph ∧ l.lastBlock = basic.id := by
  obtain ⟨hlowers, _, hlast⟩ := lowers_lowerBlock
    (OfBlock.start basic.id entrySlot).toWellFormed (held_start _ _)
    (leads_start.mpr ⟨rfl, rfl⟩) h
  exact ⟨hlowers, hlast⟩

theorem buildBlock_eq_ok (h : buildBlock program basic entrySlot now = .ok g last) :
    ∃ low, Lowers program basic (Graph.start basic.id entrySlot) low ∧
      Closes basic.id low g := by
  obtain ⟨l, now', hlower, hfinish⟩ := Step.bind_eq_ok.mp h
  obtain ⟨hlowers, hlast⟩ := lowers_start hlower
  exact ⟨l.graph, hlowers,
    hlast ▸ closes_finish hlowers.toWellFormed (Step.lift_eq_ok.mp hfinish).1⟩

/-- No interval is on record for a block that was just built. -/
theorem intervals_buildBlock (h : buildBlock program basic entrySlot now = .ok g last) :
    g.intervals = {} := by
  obtain ⟨low, hlowers, hcloses⟩ := buildBlock_eq_ok h
  have hclosed : g.intervals = low.intervals :=
    congrArg (fun rest => rest.2.2.1) hcloses.surroundings
  have hlowered : low.intervals = {} := congrArg (fun rest => rest.2.2.1) hlowers.setting
  exact hclosed.trans hlowered

theorem lead_of_buildBlock (h : buildBlock program basic entrySlot now = .ok g last)
    {exit : UnitId} {unit : ScheduleUnit} (hexit : g.exitRoot = some exit)
    (hunit : g.units[exit]? = some unit) : unit.lead = .exit basic.id := by
  obtain ⟨low, _, hcloses⟩ := buildBlock_eq_ok h
  obtain rfl := Option.some.inj (hcloses.exitRoot.symm.trans hexit)
  obtain ⟨unit', hunit', hbare⟩ := Option.map_eq_some_iff.mp hcloses.exit
  obtain rfl := Option.some.inj (hunit.symm.trans hunit')
  exact congrArg ScheduleUnit.lead hbare

theorem bundle_of_buildBlock (h : buildBlock program basic entrySlot now = .ok g last)
    {op s : OpId} (hop : op ∈ basic.ops) (hs : s ∈ basic.ops) {dependences : List Dependence}
    (hall : program.oracle.dependences op = some dependences)
    (hrecorded : ∃ dependence ∈ dependences, dependence.source = some s) :
    ∃ id source bundle, g.holder? (.op op) = some id ∧ g.holder? (.op s) = some source ∧
      g.bundle? id source = some bundle ∧
      (∃ dependence ∈ dependences, dependence.source = some s ∧
        bundle.edge = edgeOf dependence) ∧
      ∀ dependence ∈ dependences, dependence.source = some s →
        dependence.distance ≤ bundle.edge.distance → dependence.latency ≤ bundle.edge.latency := by
  obtain ⟨low, hlowers, hcloses⟩ := buildBlock_eq_ok h
  obtain ⟨id, _, hid⟩ := hlowers.holder hop
  obtain ⟨source, _, hsource⟩ := hlowers.holder hs
  have hlt := (hlowers.held.holder hid).leads.lt_size
  have hcovered : ∀ dependence ∈ dependences, dependence.source = some s →
      low.Covers id source (edgeOf dependence) := fun dependence hmem hdep =>
    hlowers.covered hop hid dependence hall hmem hdep hsource
  obtain ⟨dependence, hmem, hdep⟩ := hrecorded
  obtain ⟨bundle, hbundle, _⟩ := hcovered dependence hmem hdep
  refine ⟨id, source, bundle, (hcloses.holder?_op op).trans hid,
    (hcloses.holder?_op s).trans hsource, by rw [hcloses.agrees.edges hlt, hbundle], ?_,
    fun other hother hdep' hle => ?_⟩
  · obtain ⟨_, other, hall', hother, hdep', heq⟩ :=
      hlowers.recorded hop hid hbundle (hlowers.held.holder hsource).leads
    obtain rfl := Option.some.inj (hall.symm.trans hall')
    exact ⟨other, hother, hdep', heq⟩
  · obtain ⟨bundle', hbundle', hcovers⟩ := hcovered other hother hdep'
    obtain rfl := Option.some.inj (hbundle.symm.trans hbundle')
    rw [edgeOf_distance, edgeOf_latency] at hcovers
    exact hcovers hle

/-- In a loop, an operation waits for another one of the same iteration and, for longer,
of the iteration before. -/
def fedTwice : Program where
  ops := ⟨#[.control "ldst" 7 .trivial, .control "ldst" 7 .trivial, .branch 7 7]⟩
  oracle :=
    { dependences := fun op =>
        if op = 0 then some [.liveIn]
        else if op = 1 then some [.loopCarried 0 5 1, .value 0 3]
        else some [.value 1 0]
      stepsToFinish := fun _ => 0 }

/-- The longer latency stands, so nothing is left of the wait within the iteration. -/
theorem bundle_fedTwice :
    ∃ g last bundle,
      (buildBlock fedTwice ⟨7, [0, 1, 2]⟩ 1 : Step PUnit Graph) ⟨⟨⟩, {}⟩ = .ok g last ∧
        g.holder? (.op 1) = some 2 ∧ g.holder? (.op 0) = some 1 ∧
          g.bundle? 2 1 = some bundle ∧ bundle.edge = .loopCarried 5 1 := by
  have hsucceeds : (buildBlock fedTwice ⟨7, [0, 1, 2]⟩ 1 : Step PUnit Graph).succeeds ⟨⟨⟩, {}⟩
      (fun g => decide (g.holder? (.op 1) = some 2 ∧ g.holder? (.op 0) = some 1 ∧
        (g.bundle? 2 1).map (·.edge) = some (.loopCarried 5 1))) = true := by
    decide +kernel
  obtain ⟨g, last, hrun, htest⟩ := Step.exists_of_succeeds hsucceeds
  obtain ⟨hop, hs, hedge⟩ := of_decide_eq_true htest
  obtain ⟨bundle, hbundle, hedge⟩ := Option.map_eq_some_iff.mp hedge
  exact ⟨g, last, bundle, hrun, hop, hs, hbundle, hedge⟩

end SlotScheduling.Lowering
