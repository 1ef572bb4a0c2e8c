import SlotScheduling.Proofs.Pipelinable
import SlotScheduling.Proofs.Pipeline.Spaced
import SlotScheduling.Proofs.Schedulable

/-!
# Loops that can be scheduled

A pipelined control path leaves room for the data path of its loop if no move feeds it, no cycle of
dependencies stays within it, and each of its units is needed within the iteration.  So the loops
that are always pipelined and have such a data path are always scheduled.
-/

namespace SlotScheduling

open SlotScheduling.Graph

section

variable {σ : Type} {program : Program} {basic : BasicBlock} {entrySlot interval distance : Nat}
  {branch : UnitId} {g : Graph} {before built : Journaled σ} {found : Journaled Graph}
  {journal : Journal}
  (hbuild : Lowering.buildBlock program basic entrySlot before = .ok g built)
  (hload : program.load basic entrySlot < 2 ^ 20) (huntangled : g.Untangled)
  (hawaited : ∀ {id}, g.IsData id →
    ∃ control, g.IsControl control ∧ Relation.ReflTransGen g.WaitsWithin id control)
  (hunmoved : ∀ {move user}, g.IsMove move → g.IsData user → ¬g.DependsOn user move)

include hbuild huntangled hawaited

/-- The operations of a block are anchored in their iteration. -/
theorem Lowering.threaded_buildBlock : g.Threaded where
  untangled := huntangled
  waits := fun hdata => by
    obtain ⟨source, bundle, hbundle, hlocal, -⟩ := exists_honours_of_isData hbuild hdata
    exact ⟨source, bundle, hbundle, hlocal⟩
  awaited := hawaited

include hload hunmoved

/-- A search leaves room for the data path if no move feeds it, no cycle stays within it, and every
unit of it is needed within the iteration. -/
theorem PipelineSearch.exists_dataPath_of_run {last : Journaled Graph}
    (hrun : run ⟨g, journal⟩ = .ok interval found) (hlast : last.state = found.state)
    (options : SchedulingOptions) : ∃ done, DataPath.schedule options last = .ok ⟨⟩ done := by
  obtain ⟨exit, hg⟩ := Lowering.enclosed_buildBlock hbuild
  obtain ⟨distance, hladen⟩ := Lowering.laden_buildBlock hbuild
  have hthreaded := Lowering.threaded_buildBlock hbuild huntangled hawaited
  have hstart := startsPipelined_of_run hg.toOfBlock hrun
  have hskeleton : found.state.skeleton = g.skeleton := keeps_run.of_eq_ok hrun
  obtain ⟨branch, hbranch⟩ := Option.isSome_iff_exists.mp
    ((isPipelined_of_skeleton_eq hskeleton).symm.trans hstart.pipelined)
  have htimed : Timed basic.id g found.state :=
    (ensures_run ⟨hg, hbranch⟩ hladen hload _ rfl).of_eq_ok hrun
  have hspacious := htimed.spacious hg hladen hload
  have hspaced : Spaced basic.id entrySlot found.state :=
    spaced_of_run hg.toOfBlock hthreaded hunmoved hrun
  obtain ⟨slots, hseats⟩ := DataPath.exists_seats hspaced hspacious hstart.path
    (hstart.slot?_entryRoot (hg.of_skeleton_eq hskeleton))
  rw [← hlast] at hseats hspaced hspacious
  refine hseats.exists_schedule (fun hbundle huser => ?_) rfl hspacious
  obtain ⟨hlt, -⟩ := lt_size_of_bundle? hspaced.toWellFormed hbundle
  exact absurd (hspaced.toThreaded.isLive hspaced.toOfBlock hlt) huser

/-- A loop with such a data path has a schedule if a search finds its control path. -/
theorem exists_scheduleBlock_of_run (hpipelined : g.isPipelined = true)
    (hrun : ∀ journal, ∃ interval found, PipelineSearch.run ⟨g, journal⟩ = .ok interval found)
    (options : SchedulingOptions) :
    ∃ result last, scheduleBlock program basic entrySlot options before = .ok result last := by
  obtain ⟨interval, found, hrun⟩ := hrun
    (built.journal.note .debug fun _ => s!"running {Strategy.pipeline.name}")
  have hcontrol : (if g.isPipelined = true then schedulePipelined options
      else scheduleStraight options) ⟨g, built.journal⟩ = .ok ⟨⟩ found := by
    rw [if_pos hpipelined]
    exact schedulePipelined_of_run hrun
  obtain ⟨noted, hstate, hiff⟩ :=
    schedule_iff_of_control (Lowering.verify_buildBlock hbuild) hcontrol
  exact (scheduleBlock_iff_schedule hbuild options).mpr (hiff.mpr
    (PipelineSearch.exists_dataPath_of_run hbuild hload huntangled hawaited hunmoved hrun hstate
      options))

/-- A loop with small numbers has a schedule if nothing but the exit waits for the loop operation,
moves neither depend on shared function units nor feed the data path, no cycle of dependencies stays
within the data path, and every unit of it is needed within the iteration. -/
theorem exists_scheduleBlock_of_loop (hloop : g.loopOp = some branch)
    (hforward : ∀ {source user}, g.WaitsWithin source user → source < user)
    (hsmall : g.IsSmall distance) (hbranch : ¬g.IsMove branch)
    (husers : ∀ {user}, g.DependsOn user branch → g.exitRoot = some user)
    (hmoves : g.MovesUnshared) (options : SchedulingOptions) :
    ∃ result last, scheduleBlock program basic entrySlot options before = .ok result last :=
  exists_scheduleBlock_of_run hbuild hload huntangled hawaited hunmoved
    (Option.isSome_iff_exists.mpr ⟨branch, hloop⟩)
    (PipelineSearch.exists_run_of_buildBlock hbuild hloop hforward hsmall hbranch husers hmoves
      huntangled) options

end

/-- A loop stores twice what it has loaded, and loads again once that is stored. -/
def doublingLoop : Program where
  ops := ⟨#[.control "load" 0 ⟨.memoryBus, 0⟩, .data "add" 0 ⟨.addSub, 0⟩,
    .control "store" 0 ⟨.memoryBus, 0⟩, .branch 0 0]⟩
  oracle :=
    { dependences := fun op =>
        if op = 0 then some [.liveIn, .loopCarried 2 1 1]
        else if op = 1 then some [.value 0 2]
        else if op = 2 then some [.value 1 1]
        else some [.liveIn]
      stepsToFinish := fun _ => 0 }

/-- There is room for the sum between the load and the store. -/
theorem exists_scheduleBlock_doublingLoop (options : SchedulingOptions) :
    ∃ result last, scheduleBlock doublingLoop ⟨0, [0, 1, 2, 3]⟩ 1 options
      (⟨⟨⟩, {}⟩ : Journaled PUnit) = .ok result last := by
  have hsucceeds : (Lowering.buildBlock doublingLoop ⟨0, [0, 1, 2, 3]⟩ 1 :
      Step PUnit Graph).succeeds ⟨⟨⟩, {}⟩ (fun g => decide (g.loopOp = some 4 ∧
        g.exitRoot = some 5 ∧
        (2 * (g.allowance + 1) * (g.units.size + 1) ≤ 2 ^ 52 ∧
          g.entrySlot + 2 * (g.allowance + 1) < Word.count) ∧
        (∀ unit ∈ g.units.toList, (unit.control = false → unit.id = 2) ∧ unit.phi = false) ∧
        (∀ unit ∈ g.units.toList, ∀ dep ∈ unit.deps.entries, dep.2.edge.distance ≤ 1 ∧
          (dep.1 = 4 → unit.id = 5) ∧ (dep.2.edge.distance = 0 → dep.1 < unit.id) ∧
          (unit.id = 2 → dep.1 < 2)) ∧
        ∃ bundle ∈ g.bundle? 3 2, bundle.edge.distance = 0)) = true := by
    decide +kernel
  obtain ⟨g, built, hbuild, htest⟩ := Step.exists_of_succeeds hsucceeds
  obtain ⟨hloop, hexit, ⟨hroom, hwords⟩, hunits, hedges, hstored⟩ := of_decide_eq_true htest
  have hlisted := (Lowering.ofBlock_buildBlock hbuild).1.toListed
  have hbundle : ∀ {user source bundle}, g.bundle? user source = some bundle →
      bundle.edge.distance ≤ 1 ∧ (source = 4 → user = 5) ∧
        (bundle.edge.distance = 0 → source < user) ∧ (user = 2 → source < 2) := by
    intro user source bundle hbundle
    obtain ⟨unit, hunit, rfl, hdep⟩ := hlisted.exists_of_bundle? hbundle
    exact hedges unit hunit _ hdep
  have hunit : ∀ {id : UnitId} {unit : ScheduleUnit}, g.units[id]? = some unit →
      (unit.control = false → id = 2) ∧ unit.phi = false := by
    intro id unit hunit
    rw [← hlisted.positions hunit]
    exact hunits unit (mem_units.mpr ⟨id, hunit⟩)
  have hdata : ∀ {id}, g.IsData id → id = 2 := fun ⟨_, hfound, hdata⟩ => (hunit hfound).1 hdata
  have hmove : ∀ {id}, ¬g.IsMove id := fun ⟨_, hfound, hphi⟩ => by
    rw [(hunit hfound).2] at hphi
    cases hphi
  have huntangled : g.Untangled := by
    intro id hcircular
    obtain rfl := hdata (isData_of_feeds hcircular)
    obtain ⟨source, -, hsource, -, hdepends⟩ := Relation.TransGen.tail'_iff.mp hcircular
    obtain ⟨bundle, hfound⟩ := dependsOn_iff_bundle?.mp hdepends
    exact absurd (hdata hsource) (Nat.ne_of_lt ((hbundle hfound).2.2.2 rfl))
  have hawaited : ∀ {id}, g.IsData id →
      ∃ control, g.IsControl control ∧ Relation.ReflTransGen g.WaitsWithin id control := by
    intro id hid
    obtain rfl := hdata hid
    obtain ⟨bundle, hfound, hlocal⟩ := hstored
    have hlt := (lt_size_of_bundle? (Lowering.ofBlock_buildBlock hbuild).1.toWellFormed hfound).1
    exact ⟨3,
      (isControl_or_isData hlt).resolve_right fun hthree => absurd (hdata hthree) (by decide),
      .single ⟨bundle, hfound, hlocal⟩⟩
  exact exists_scheduleBlock_of_loop hbuild (by decide) huntangled hawaited
    (fun h => absurd h hmove) hloop (fun ⟨_, hfound, hlocal⟩ => (hbundle hfound).2.2.1 hlocal)
    ⟨fun hfound => (hbundle hfound).1, hroom, hwords⟩ hmove
    (fun hdepends => by
      obtain ⟨bundle, hfound⟩ := dependsOn_iff_bundle?.mp hdepends
      rw [hexit, (hbundle hfound).2.1 rfl])
    (fun _ h => absurd h hmove) options

/-! ## Loops without room -/

/-- What an evaluation of both passes finds. -/
theorem PipelineSearch.exists_infeasible (program : Program) (basic : BasicBlock)
    (test : Graph → Bool) (reason : String)
    (h : (Lowering.buildBlock program basic 1 : Step PUnit Graph).succeeds ⟨⟨⟩, {}⟩ (fun g =>
      test g && (run.succeeds ⟨g, {}⟩ (fun _ => true) &&
        decide ((run >>= fun _ => DataPath.schedule {}).failure? ⟨g, {}⟩ =
          some (.error (.broken .infeasibleSystem reason))))) = true) :
    ∃ g built interval found last,
      (Lowering.buildBlock program basic 1 : Step PUnit Graph) ⟨⟨⟩, {}⟩ = .ok g built ∧
      test g = true ∧ run ⟨g, {}⟩ = .ok interval found ∧
      DataPath.schedule {} found = .error (.error (.broken .infeasibleSystem reason)) last := by
  obtain ⟨g, built, hbuild, h⟩ := Step.exists_of_succeeds h
  obtain ⟨htest, h⟩ := Bool.and_eq_true_iff.mp h
  obtain ⟨hrun, hfails⟩ := Bool.and_eq_true_iff.mp h
  obtain ⟨interval, found, hrun, -⟩ := Step.exists_of_succeeds hrun
  obtain ⟨last, hfails⟩ := Step.exists_of_failure? (of_decide_eq_true hfails)
  rw [Step.bind_of_eq_ok hrun] at hfails
  exact ⟨g, built, interval, found, last, hbuild, htest, hrun, hfails⟩

/-- A store waits for a sum of what a move yields. -/
def movedOperand : Program where
  ops := ⟨#[{ Operation.control "phi" 0 .trivial with phi := true }, .data "add" 0 .trivial,
    .control "store" 0 .trivial, .branch 0 0]⟩
  oracle :=
    { dependences := fun op =>
        if op = 0 then some [.liveIn]
        else if op = 1 then some [.value 0 0]
        else if op = 2 then some [.value 1 0]
        else some [.value 2 2]
      stepsToFinish := fun _ => 0 }

/-- The move is delayed beyond the store, so that there is no slot for the sum. -/
theorem PipelineSearch.infeasible_movedOperand :
    ∃ g built interval found reason last,
      (Lowering.buildBlock movedOperand ⟨0, [0, 1, 2, 3]⟩ 1 : Step PUnit Graph) ⟨⟨⟩, {}⟩ =
        .ok g built ∧
      g.IsMove 1 ∧ g.IsData 2 ∧ g.DependsOn 2 1 ∧ run ⟨g, {}⟩ = .ok interval found ∧
      DataPath.schedule {} found = .error (.error (.broken .infeasibleSystem reason)) last := by
  have hinfeasible := exists_infeasible movedOperand ⟨0, [0, 1, 2, 3]⟩
    (fun g => decide (g.IsMove 1 ∧
      ∃ unit ∈ g.units[2]?, unit.control = false ∧ 1 ∈ unit.deps.keys))
    "positive cycle among 4 constraints" (by decide +kernel)
  obtain ⟨g, built, interval, found, last, hbuild, htest, hrun, hfails⟩ := hinfeasible
  obtain ⟨hmove, unit, hunit, hdata, hdepends⟩ := of_decide_eq_true htest
  exact ⟨g, built, interval, found, _, last, hbuild, hmove, ⟨unit, hunit, hdata⟩,
    ⟨unit, hunit, hdepends⟩, hrun, hfails⟩

/-- Two results of the data path wait for each other, one of them for the iteration before, and a
control unit waits for each. -/
def tangledOperands : Program where
  ops := ⟨#[.control "ld" 0 .trivial, .data "d1" 0 .trivial, .data "d2" 0 .trivial,
    .control "c1" 0 .trivial, .control "c2" 0 .trivial, .branch 0 0]⟩
  oracle :=
    { dependences := fun op =>
        if op = 0 then some [.liveIn]
        else if op = 1 then some [.value 0 3, .loopCarried 2 0 1]
        else if op = 2 ∨ op = 3 then some [.value 1 0]
        else if op = 4 then some [.value 2 0]
        else some [.value 3 1]
      stepsToFinish := fun _ => 0 }

/-- What is found for the second result while the first one is looked through misses the load, and
is kept. -/
theorem PipelineSearch.infeasible_tangledOperands :
    ∃ g built interval found reason last,
      (Lowering.buildBlock tangledOperands ⟨0, [0, 1, 2, 3, 4, 5]⟩ 1 : Step PUnit Graph) ⟨⟨⟩, {}⟩ =
        .ok g built ∧
      g.Circular 2 ∧ run ⟨g, {}⟩ = .ok interval found ∧
      DataPath.schedule {} found = .error (.error (.broken .infeasibleSystem reason)) last := by
  have hinfeasible := exists_infeasible tangledOperands ⟨0, [0, 1, 2, 3, 4, 5]⟩
    (fun g => decide (∃ first ∈ g.units[2]?, ∃ second ∈ g.units[3]?, first.control = false ∧
      second.control = false ∧ 3 ∈ first.deps.keys ∧ 2 ∈ second.deps.keys))
    "positive cycle among 9 constraints" (by decide +kernel)
  obtain ⟨g, built, interval, found, last, hbuild, htest, hrun, hfails⟩ := hinfeasible
  obtain ⟨first, hfirst, second, hsecond, hdata, hdata', hwaits, hwaits'⟩ := of_decide_eq_true htest
  have hforth : g.Feeds 2 3 :=
    ⟨⟨first, hfirst, hdata⟩, ⟨second, hsecond, hdata'⟩, second, hsecond, hwaits'⟩
  have hback : g.Feeds 3 2 := ⟨hforth.2.1, hforth.1, first, hfirst, hwaits⟩
  exact ⟨g, built, interval, found, _, last, hbuild, .tail (.single hforth) hback, hrun, hfails⟩

end SlotScheduling
