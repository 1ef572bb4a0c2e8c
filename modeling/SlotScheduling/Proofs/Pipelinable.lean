import SlotScheduling.Proofs.Legality
import SlotScheduling.Proofs.Pipeline.Finding

/-!
# Loops that are always pipelined

A search can give up on a loop although some interval has a schedule: the exit does not wait for a
loop operation that another unit waits for, so that the search starts from a critical path that is
too short, and reaches its ceiling too early.  It never gives up on a loop with small numbers where
nothing but the exit waits for the loop operation, no move shares a function unit or waits for a
unit that does, and no cycle of dependencies stays within the data path.
-/

namespace SlotScheduling

namespace Graph

variable {g : Graph}

theorem Listed.exists_of_bundle? (hg : g.Listed) {user source : UnitId} {bundle : EdgeBundle}
    (hbundle : g.bundle? user source = some bundle) :
    ∃ unit ∈ g.units.toList, unit.id = user ∧ (source, bundle) ∈ unit.deps.entries := by
  obtain ⟨unit, hunit, hdep⟩ := Graph.exists_of_bundle? hbundle
  exact ⟨unit, mem_units.mpr ⟨user, hunit⟩, hg.positions hunit,
    Table.mem_entries_of_get?_eq_some hdep⟩

end Graph

namespace PipelineSearch

open SlotScheduling.Graph

variable {σ : Type} {program : Program} {basic : BasicBlock} {entrySlot distance : Nat}
  {branch : UnitId} {g : Graph} {now last : Journaled σ}

/-- A search finds a schedule for every loop with small numbers in which nothing but the exit waits
for the loop operation, moves do not depend on shared function units, and no cycle of dependencies
stays within the data path. -/
theorem exists_run_of_buildBlock
    (hbuild : Lowering.buildBlock program basic entrySlot now = .ok g last)
    (hloop : g.loopOp = some branch)
    (hforward : ∀ {source user}, g.WaitsWithin source user → source < user)
    (hsmall : g.IsSmall distance)
    (hbranch : ¬g.IsMove branch)
    (husers : ∀ {user}, g.DependsOn user branch → g.exitRoot = some user)
    (hmoves : g.MovesUnshared) (huntangled : g.Untangled) (journal : Journal) :
    ∃ interval finished, run ⟨g, journal⟩ = .ok interval finished := by
  obtain ⟨exit, hg⟩ := Lowering.enclosed_buildBlock hbuild
  have hnow : Enclosed basic.id entrySlot exit (Journaled.mk g journal).state := hg
  exact exists_run hnow hsmall
    (fun hrestart => hrestart.looping hg hloop hbranch husers hforward huntangled) hmoves

theorem exists_run_accessLoop :
    ∃ g last interval finished,
      (Lowering.buildBlock accessLoop ⟨7, [0, 1, 2, 3]⟩ 3 : Step PUnit Graph) ⟨⟨⟩, {}⟩ =
        .ok g last ∧ run ⟨g, {}⟩ = .ok interval finished := by
  have hsucceeds : (Lowering.buildBlock accessLoop ⟨7, [0, 1, 2, 3]⟩ 3 : Step PUnit Graph).succeeds
      ⟨⟨⟩, {}⟩ (fun g => decide (g.loopOp = some 4 ∧ g.exitRoot = some 5 ∧
        (2 * (g.allowance + 1) * (g.units.size + 1) ≤ 2 ^ 52 ∧
          g.entrySlot + 2 * (g.allowance + 1) < Word.count) ∧
        (∀ unit ∈ g.units.toList, unit.control = true ∧ (unit.phi = true → unit.id = 1) ∧
          (unit.id ≤ 1 → unit.funcUnit.isTrivial = true)) ∧
        ∀ unit ∈ g.units.toList, ∀ dep ∈ unit.deps.entries, dep.2.edge.distance ≤ 1 ∧
          (dep.1 = 4 → unit.id = 5) ∧ (dep.2.edge.distance = 0 → dep.1 < unit.id))) = true := by
    decide +kernel
  obtain ⟨g, last, hbuild, htest⟩ := Step.exists_of_succeeds hsucceeds
  obtain ⟨hloop, hexit, ⟨hroom, hwords⟩, hunits, hedges⟩ := of_decide_eq_true htest
  have hlisted := (Lowering.ofBlock_buildBlock hbuild).1.toListed
  have hbundle : ∀ {user source bundle}, g.bundle? user source = some bundle →
      bundle.edge.distance ≤ 1 ∧ (source = 4 → user = 5) ∧
        (bundle.edge.distance = 0 → source < user) := by
    intro user source bundle hbundle
    obtain ⟨unit, hunit, rfl, hdep⟩ := hlisted.exists_of_bundle? hbundle
    exact hedges unit hunit _ hdep
  have hunit : ∀ {id : UnitId} {unit : ScheduleUnit}, g.units[id]? = some unit →
      unit.control = true ∧ (unit.phi = true → id = 1) ∧
        (id ≤ 1 → unit.funcUnit.isTrivial = true) := by
    intro id unit hunit
    rw [← hlisted.positions hunit]
    exact hunits unit (mem_units.mpr ⟨id, hunit⟩)
  have hforward : ∀ {source user}, g.WaitsWithin source user → source < user :=
    fun ⟨_, hfound, hlocal⟩ => (hbundle hfound).2.2 hlocal
  have hmove : ∀ {id}, g.IsMove id → id = 1 := fun ⟨_, hfound, hphi⟩ => (hunit hfound).2.1 hphi
  have hreaches : ∀ {source user}, Relation.ReflTransGen g.WaitsWithin source user →
      source ≤ user := by
    intro source user hwaits
    induction hwaits with
    | refl => exact le_rfl
    | tail _ hwaits ih => exact ih.trans (hforward hwaits).le
  have hmoves : g.MovesUnshared := by
    rintro source user move ⟨-, unit, -, hfound, -, -, -, -, hshared⟩ hisMove hwaits
    rw [(hunit hfound).2.2 ((hreaches hwaits).trans (hmove hisMove).le)] at hshared
    cases hshared
  have huntangled : g.Untangled := by
    intro id hcircular
    obtain ⟨unit, hfound, hdata⟩ := isData_of_feeds hcircular
    rw [(hunit hfound).1] at hdata
    cases hdata
  obtain ⟨interval, finished, hrun⟩ := exists_run_of_buildBlock hbuild hloop hforward
    ⟨fun hfound => (hbundle hfound).1, hroom, hwords⟩ (fun h => absurd (hmove h) (by decide))
    (fun hdepends => by
      obtain ⟨bundle, hfound⟩ := dependsOn_iff_bundle?.mp hdepends
      rw [hexit, (hbundle hfound).2.1 rfl])
    hmoves huntangled {}
  exact ⟨g, last, interval, finished, hbuild, hrun⟩

/-- The branch waits for eight slots, and one operation waits for the branch of the iteration
before, so that the exit does not wait for it. -/
def lateBranch : Program where
  ops := ⟨#[.control "a" 0 .trivial, .control "b" 0 .trivial, .branch 0 0]⟩
  oracle :=
    { dependences := fun op =>
        if op = 0 then some [.liveIn]
        else if op = 1 then some [.loopCarried 2 0 1]
        else some [.value 0 8]
      stepsToFinish := fun _ => 0 }

/-- An interval of eight would do, but the search gives up below it. -/
theorem searchExhausted_lateBranch :
    ∃ g last finished,
      (Lowering.buildBlock lateBranch ⟨0, [0, 1, 2]⟩ 1 : Step PUnit Graph) ⟨⟨⟩, {}⟩ = .ok g last ∧
      g.loopOp.isSome = true ∧ (∀ {source user}, g.WaitsWithin source user → source < user) ∧
      g.IsSmall 1 ∧ run ⟨g, {}⟩ = .error (.error (.searchExhausted 0 7 15)) finished := by
  have hsucceeds : (Lowering.buildBlock lateBranch ⟨0, [0, 1, 2]⟩ 1 : Step PUnit Graph).succeeds
      ⟨⟨⟩, {}⟩ (fun g => decide (g.loopOp.isSome = true ∧
        (2 * (g.allowance + 1) * (g.units.size + 1) ≤ 2 ^ 52 ∧
          g.entrySlot + 2 * (g.allowance + 1) < Word.count) ∧
        (∀ unit ∈ g.units.toList, ∀ dep ∈ unit.deps.entries, dep.2.edge.distance ≤ 1 ∧
          (dep.2.edge.distance = 0 → dep.1 < unit.id)) ∧
        run.failure? ⟨g, {}⟩ = some (.error (.searchExhausted 0 7 15)))) = true := by
    decide +kernel
  obtain ⟨g, last, hbuild, htest⟩ := Step.exists_of_succeeds hsucceeds
  obtain ⟨hloop, ⟨hroom, hwords⟩, hedges, hfailure⟩ := of_decide_eq_true htest
  have hbundle : ∀ {user source bundle}, g.bundle? user source = some bundle →
      bundle.edge.distance ≤ 1 ∧ (bundle.edge.distance = 0 → source < user) := by
    intro user source bundle hbundle
    obtain ⟨unit, hunit, rfl, hdep⟩ :=
      (Lowering.ofBlock_buildBlock hbuild).1.toListed.exists_of_bundle? hbundle
    exact hedges unit hunit _ hdep
  obtain ⟨finished, hrun⟩ := Step.exists_of_failure? hfailure
  exact ⟨g, last, finished, hbuild, hloop, fun ⟨_, hfound, hlocal⟩ => (hbundle hfound).2 hlocal,
    ⟨fun hfound => (hbundle hfound).1, hroom, hwords⟩, hrun⟩

end PipelineSearch

end SlotScheduling
