import Mathlib.Algebra.BigOperators.Group.Finset.Piecewise
import SlotScheduling.Proofs.Graph.Faultless
import SlotScheduling.Proofs.Pipeline.Feasible

/-!
# Loads

How large the numbers in the graph of a block are: no larger together than what is known about its
operations, with one unit for each of them beside the entry and the exit.
-/

namespace SlotScheduling

/-- If no round raises a measure by more than the weight of its item, no loop raises it by more than
all weights together. -/
theorem Checked.foldlM_le_add_sum {α β : Type} {P : β → Prop} {measure : β → Nat}
    {weight : α → Nat} {round : β → α → Checked β} {list : List α} {first last : β}
    (hround : ∀ a ∈ list, ∀ before after, P before → round before a = .ok after →
      P after ∧ measure after ≤ measure before + weight a)
    (hfirst : P first) (h : list.foldlM round first = .ok last) :
    P last ∧ measure last ≤ measure first + (list.map weight).sum := by
  induction list generalizing first with
  | nil =>
      cases h
      exact ⟨hfirst, le_rfl⟩
  | cons item rest ih =>
      rw [List.foldlM_cons] at h
      obtain ⟨next, hnext, h⟩ := bind_eq_ok.mp h
      obtain ⟨hkept, hle⟩ := hround item List.mem_cons_self first next hfirst hnext
      obtain ⟨hlast, hrest⟩ :=
        ih (fun other hother => hround other (List.mem_cons_of_mem item hother)) hkept h
      refine ⟨hlast, ?_⟩
      rw [List.map_cons, List.sum_cons]
      omega

namespace Table

variable {κ ν : Type} [DecidableEq κ] {table : Table κ ν} {key : κ} (weight : ν → Nat)

theorem sum_values_insert_le (value : ν) :
    ((table.insert key value).values.map weight).sum ≤
      (table.values.map weight).sum + weight value := by
  have herase : ((table.erase key).values.map weight).Sublist (table.values.map weight) :=
    (List.filter_sublist.map _).map _
  have hle := herase.sum_le_sum fun _ _ => Nat.zero_le _
  simpa [insert, values] using hle

theorem sum_values_modify_le {change : ν → ν} {more : Nat} (hnodup : table.keys.Nodup)
    (hchange : ∀ old, table.get? key = some old → weight (change old) ≤ weight old + more) :
    ((table.modify key change).values.map weight).sum ≤ (table.values.map weight).sum + more := by
  obtain ⟨entries⟩ := table
  simp only [modify, values, List.map_map]
  induction entries with
  | nil => simp
  | cons entry rest ih =>
      obtain ⟨hnew, hrest⟩ := List.nodup_cons.mp hnodup
      by_cases hkey : entry.1 = key
      · have hsame : ∀ other ∈ rest,
            (if other.1 = key then (other.1, change other.2) else other) = other :=
          fun other hother => if_neg fun heq => by
          refine hnew ?_
          rw [hkey, ← heq]
          exact List.mem_map_of_mem hother
        have hle := hchange entry.2 (by simp [get?, hkey])
        have htail : (rest.map (weight ∘ Prod.snd ∘ fun entry =>
            if entry.1 = key then (entry.1, change entry.2) else entry)) =
            rest.map (weight ∘ Prod.snd) :=
          List.map_congr_left fun other hother => by simp [hsame other hother]
        rw [List.map_cons, List.map_cons, htail]
        simp only [Function.comp, hkey, if_true, List.sum_cons]
        omega
      · have hle := ih hrest fun old hold => hchange old (by simpa [get?, hkey] using hold)
        rw [List.map_cons, List.map_cons, List.sum_cons, List.sum_cons]
        simp only [Function.comp, hkey, if_false] at hle ⊢
        omega

end Table

namespace Graph

variable {g g' : Graph} {id target source : UnitId} {edge : DepEdge}

/-- The steps that all units take to finish. -/
def stepSum (g : Graph) : Nat := (g.units.toList.map (·.latency)).sum

theorem stepSum_of_bare_eq (h : g'.bare = g.bare) : g'.stepSum = g.stepSum := by
  have hbare : ∀ g : Graph, g.bare.stepSum = g.stepSum := fun g => by
    simp [stepSum, bare, Function.comp_def, ScheduleUnit.bare]
  rw [← hbare, h, hbare]

/-- The units from which the exit can wait for a result take no longer than all units. -/
theorem sum_latency_le_stepSum {ids : List UnitId} (hnodup : ids.Nodup)
    (hids : ∀ id ∈ ids, id < g.units.size) :
    (ids.map fun id => (g.units[id]?.map (·.latency)).getD 0).sum ≤ g.stepSum := by
  have hsub : ids.Subperm (List.range g.units.size) :=
    hnodup.subperm fun id hid => List.mem_range.mpr (hids id hid)
  obtain ⟨perm, hperm, hsublist⟩ := hsub
  have hle := (hsublist.map fun id => (g.units[id]?.map (·.latency)).getD 0).sum_le_sum
    fun _ _ => Nat.zero_le _
  have hunits : (List.range g.units.size).map (fun id => (g.units[id]?.map (·.latency)).getD 0) =
      g.units.toList.map (·.latency) := by
    refine List.ext_getElem (by simp) fun id hid _ => ?_
    have hlt : id < g.units.size := by simpa using hid
    simp [Array.getElem?_eq_getElem hlt]
  rw [(hperm.map _).sum_eq, hunits] at hle
  exact hle

theorem latencyInto_addDep (hg : g.Tidy) (h : g.addDep target source edge = .ok g') (id : UnitId) :
    g'.latencyInto id ≤ g.latencyInto id + if id = target then edge.latency else 0 := by
  obtain ⟨producer, consumer, _, hconsumer, _, hcases⟩ := addDep_eq_ok h
  unfold latencyInto
  rcases hcases with ⟨old, bundle, hold, hbundle, hchange⟩ | ⟨hnone, middle, hmiddle, hend⟩
  · rw [getElem?_changeUnit hchange]
    by_cases hid : id = target
    · subst hid
      simp only [if_pos, hconsumer, Option.map_some, Option.getD_some]
      refine Table.sum_values_modify_le (fun bundle : EdgeBundle => bundle.edge.latency)
        (hg.tidy hconsumer).nodup fun old' hold' => ?_
      obtain rfl := Option.some.inj (hold.symm.trans hold')
      rcases EdgeBundle.addEdge_cases hbundle with ⟨heq, _⟩ | ⟨heq, _⟩
      · rw [heq]
        exact Nat.le_add_right _ _
      · rw [heq]
        exact Nat.le_add_left _ _
    · simp [hid, Ne.symm hid]
  · rw [getElem?_changeUnit hend, getElem?_changeUnit hmiddle]
    have huse : ∀ unit? : Option ScheduleUnit,
        ((if source = id then unit?.map (·.addUse target) else unit?).map fun unit =>
          (unit.deps.values.map (·.edge.latency)).sum) =
        unit?.map fun unit => (unit.deps.values.map (·.edge.latency)).sum := by
      intro unit?
      split
      · cases unit? <;> rfl
      · rfl
    rw [huse]
    by_cases hid : id = target
    · subst hid
      simp only [if_pos, hconsumer, Option.map_some, Option.getD_some]
      exact Table.sum_values_insert_le (fun bundle : EdgeBundle => bundle.edge.latency) _
    · simp [hid, Ne.symm hid]

/-- A dependency adds no more than its latency. -/
theorem latencySum_addDep (hg : g.Tidy) (h : g.addDep target source edge = .ok g') :
    g'.latencySum ≤ g.latencySum + edge.latency := by
  rw [← sum_latencyInto, ← sum_latencyInto, size_eq_of_bare_eq (bare_addDep h)]
  refine (Finset.sum_le_sum fun id _ => latencyInto_addDep hg h id).trans ?_
  rw [Finset.sum_add_distrib, Finset.sum_ite_eq']
  split
  · exact le_rfl
  · exact Nat.add_le_add_left (Nat.zero_le _) _

/-- Every dependency spans at most that many iterations. -/
def Spans (g : Graph) (distance : Nat) : Prop :=
  ∀ {user source bundle}, g.bundle? user source = some bundle → bundle.edge.distance ≤ distance

theorem Spans.addDep {distance : Nat} (h : g.Spans distance) (hg : g.Listed)
    (hedge : edge.distance ≤ distance) (hadd : g.addDep target source edge = .ok g') :
    g'.Spans distance := by
  intro user other bundle hbundle
  obtain ⟨joined, hjoins, hbundles⟩ := bundle?_addDep hg hadd
  rw [hbundles] at hbundle
  split at hbundle
  · cases hbundle
    rcases hjoins with ⟨_, heq⟩ | ⟨old, hold, hmerge⟩
    · rwa [heq]
    · rcases EdgeBundle.addEdge_cases hmerge with ⟨heq, _⟩ | ⟨heq, _⟩
      · rw [heq]
        exact h hold
      · rwa [heq]
  · exact h hbundle

section

variable {lead : Instr} {block : BlockId} {funcUnit : FuncUnit} {control : Bool} {latency : Nat}

theorem latencySum_createUnit :
    (g.createUnit lead block funcUnit control latency).latencySum = g.latencySum := by
  simp only [latencySum, createUnit, Array.toList_push, List.flatMap_append, List.sum_append]
  rfl

theorem stepSum_createUnit :
    (g.createUnit lead block funcUnit control latency).stepSum = g.stepSum + latency := by
  simp [stepSum, createUnit]

theorem Spans.createUnit {distance : Nat} (h : g.Spans distance) :
    (g.createUnit lead block funcUnit control latency).Spans distance := by
  intro user source bundle hbundle
  rw [bundle?, getElem?_createUnit] at hbundle
  split at hbundle
  · cases hbundle
  · exact h hbundle

end

end Graph

/-! ## What is known about operations -/

namespace Program

variable (program : Program) (op : OpId)

/-- The latencies of all operands of an operation. -/
def operandLatencies : List Nat := ((program.oracle.dependences op).getD []).map (·.latency)

/-- The iterations that the operands of an operation span. -/
def operandDistances : List Nat := ((program.oracle.dependences op).getD []).map (·.distance)

/-- All numbers that the oracle reports for an operation. -/
def opLoad : Nat :=
  program.oracle.stepsToFinish op + ((program.operandLatencies op).sum +
    (program.operandDistances op).sum)

/-- The entry slot, the number of operations and all numbers that the oracle reports for them. -/
def load (basic : BasicBlock) (entrySlot : Nat) : Nat :=
  entrySlot + basic.ops.length + (basic.ops.map program.opLoad).sum

theorem load_eq (basic : BasicBlock) (entrySlot : Nat) : program.load basic entrySlot =
    entrySlot + basic.ops.length + (basic.ops.map program.oracle.stepsToFinish).sum +
      (basic.ops.map fun op => (program.operandLatencies op).sum).sum +
      (basic.ops.map fun op => (program.operandDistances op).sum).sum := by
  unfold load
  simp only [show program.opLoad = fun op => program.oracle.stepsToFinish op +
    ((program.operandLatencies op).sum + (program.operandDistances op).sum) from rfl,
    List.sum_map_add]
  omega

end Program

namespace Lowering

open SlotScheduling.Graph

variable {σ : Type} {program : Program} {basic : BasicBlock} {block : BlockId}
  {g g' made : Graph} {op : OpId} {entry id : UnitId} {entrySlot distance : Nat}
  {now last : Journaled σ}

theorem Made.units_eq {operation : Operation} (h : Made program block op operation g g') :
    g'.units = g.units.push (unitOf program block op operation g.units.size) := by
  refine Array.ext_getElem? fun id => ?_
  rw [h.units, Array.getElem?_push]

/-- A new unit has no dependencies, and takes as long to finish as its operation. -/
structure Counted (program : Program) (ops : List OpId) (g : Graph) : Prop where
  size : g.units.size = ops.length + 1
  steps : g.stepSum = (ops.map program.oracle.stepsToFinish).sum
  latencies : g.latencySum = 0
  unbound : ∀ user source, g.bundle? user source = none

theorem counted_start (program : Program) (block : BlockId) (entrySlot : Nat) :
    Counted program [] (Graph.start block entrySlot) := by
  refine ⟨rfl, rfl, rfl, fun user source => ?_⟩
  rw [bundle?, getElem?_start]
  split <;> rfl

theorem Counted.createOp {ops : List OpId} {operation : Operation} (hg : Counted program ops g)
    (hmade : Made program block op operation g g') : Counted program (ops ++ [op]) g' := by
  refine ⟨by simp [hmade.size, hg.size], ?_, ?_, fun user source => ?_⟩
  · rw [stepSum, hmade.units_eq, Array.toList_push, List.map_append, List.sum_append,
      List.map_append, List.sum_append, ← hg.steps]
    rfl
  · rw [latencySum, hmade.units_eq, Array.toList_push, List.flatMap_append, List.sum_append]
    exact hg.latencies
  · rw [bundle?, hmade.units]
    split
    · rfl
    · exact hg.unbound user source

theorem counted_createOps {ops : List OpId} {created created' : List (OpId × UnitId)}
    (hg : g.WellFormed) (hcounted : Counted program (created.map Prod.fst) g)
    (h : ops.foldlM (createNext program block) (g, created) now = .ok (g', created') last) :
    Counted program (created'.map Prod.fst) g' ∧
      created'.map Prod.fst = created.map Prod.fst ++ ops := by
  induction ops generalizing g created now with
  | nil =>
      obtain ⟨heq, -⟩ := Step.pure_eq_ok.mp h
      cases heq
      exact ⟨hcounted, (List.append_nil _).symm⟩
  | cons op rest ih =>
      rw [List.foldlM_cons] at h
      obtain ⟨⟨next, listed⟩, middle, hround, h⟩ := Step.bind_eq_ok.mp h
      obtain ⟨loops, hcreate, rfl⟩ := createNext_eq_ok hround
      obtain ⟨operation, _, hmade⟩ := made_createOp hg hcreate
      have hnext := hcounted.createOp hmade
      rw [show created.map Prod.fst ++ [op] = (created ++ [(op, g.nextId)]).map Prod.fst by simp]
        at hnext
      obtain ⟨hlast, hlisted⟩ := ih hmade.toWellFormed hnext h
      exact ⟨hlast, by simpa using hlisted⟩

/-! ## Dependencies -/

/-- The graph has loose dependencies over few iterations, and the units of the other one. -/
structure Weighs (distance : Nat) (made g : Graph) : Prop extends Listed g, Tidy g where
  spans : g.Spans distance
  bare : g.bare = made.bare

theorem Weighs.addDep {target source : UnitId} {edge : DepEdge} (hg : Weighs distance made g)
    (hloose : edge.isFixedTiming = false) (hedge : edge.distance ≤ distance)
    (h : g.addDep target source edge = .ok g') : Weighs distance made g' :=
  ⟨hg.toListed.of_bare_eq (bare_addDep h), hg.toTidy.addDep hloose h,
    Graph.Spans.addDep hg.spans hg.toListed hedge h, (bare_addDep h).trans hg.bare⟩

theorem weighs_attachOperands {pair : OpId × UnitId} (hg : Weighs distance made g)
    (hdistance : (program.operandDistances pair.1).sum ≤ distance)
    (h : attachOperands program entry g pair = .ok g') : Weighs distance made g' ∧
      g'.latencySum ≤ g.latencySum + (program.operandLatencies pair.1).sum := by
  unfold attachOperands at h
  unfold Program.operandDistances at hdistance
  unfold Program.operandLatencies
  split at h
  · cases h
  next dependences hall =>
    rw [hall] at hdistance ⊢
    refine Checked.foldlM_le_add_sum (P := Weighs distance made)
      (fun dependence hmem before after hbefore hround => ?_) hg h
    have hle := (List.le_sum_of_mem (List.mem_map_of_mem hmem)).trans hdistance
    obtain ⟨source, edge, hadd, rfl | rfl⟩ := attachOperand_eq_ok hround
    · have hadds := latencySum_addDep hbefore.toTidy hadd
      rw [edgeOf_latency] at hadds
      exact ⟨hbefore.addDep (isFixedTiming_edgeOf dependence)
        ((edgeOf_distance dependence).le.trans hle) hadd, hadds⟩
    · exact ⟨hbefore.addDep rfl (Nat.zero_le _) hadd,
        (latencySum_addDep hbefore.toTidy hadd).trans (Nat.add_le_add_left (Nat.zero_le _) _)⟩

theorem weighs_attachUnits {created : List (OpId × UnitId)} (hg : Weighs distance made g)
    (hdistance : ∀ pair ∈ created, (program.operandDistances pair.1).sum ≤ distance)
    (h : attachUnits program entry block created g = .ok g') : Weighs distance made g' ∧
      g'.latencySum ≤ g.latencySum +
        (created.map fun pair => (program.operandLatencies pair.1).sum).sum := by
  obtain ⟨attached, hattach, hanchor⟩ := Checked.bind_eq_ok.mp h
  obtain ⟨hattached, hle⟩ := Checked.foldlM_le_add_sum (P := Weighs distance made)
    (fun pair hpair _ _ hbefore hround =>
      weighs_attachOperands hbefore (hdistance pair hpair) hround) hg hattach
  exact Checked.foldlM_induction
    (P := fun now : Graph => Weighs distance made now ∧ now.latencySum ≤ _)
    (fun id _ before after hbefore hround => by
      obtain ⟨hbefore, hle⟩ := hbefore
      rcases anchorUnit_eq_ok hround with rfl | hadd
      · exact ⟨hbefore, hle⟩
      · exact ⟨hbefore.addDep rfl (Nat.zero_le _) hadd,
          (latencySum_addDep hbefore.toTidy hadd).trans hle⟩)
    ⟨hattached, hle⟩ hanchor

theorem weighs_finish {l : Lowering} (hg : l.graph.WellFormed)
    (hweighs : Weighs distance made l.graph) (h : l.finish = .ok g) :
    g.Spans distance ∧ g.stepSum = l.graph.stepSum ∧
      g.latencySum ≤ l.graph.latencySum + l.graph.stepSum := by
  obtain ⟨found, hfound, hnodup, hmem⟩ := exists_sinks hg.toListed
  obtain ⟨sinks, hsinks, h⟩ := Checked.bind_eq_ok.mp h
  obtain rfl := Except.ok.inj (hfound.symm.trans hsinks)
  obtain ⟨attached, hattach, h⟩ := Checked.bind_eq_ok.mp h
  obtain ⟨_, _, h⟩ := Checked.bind_eq_ok.mp h
  obtain rfl := Checked.pure_eq_ok.mp h
  have hclosed := closes_createExit hg l.lastBlock
  have hstart : Weighs distance (l.graph.createExit l.lastBlock) (l.graph.createExit l.lastBlock) :=
    ⟨hclosed.toListed, ⟨hweighs.toTidy.createUnit.tidy, hweighs.toTidy.entryNoLoop⟩,
      Graph.Spans.createUnit hweighs.spans, rfl⟩
  obtain ⟨hlast, hle⟩ := Checked.foldlM_le_add_sum
    (P := Weighs distance (l.graph.createExit l.lastBlock))
    (fun sink hsink before after hbefore hround => by
      obtain ⟨unit, hunit, hadd⟩ := Checked.bind_eq_ok.mp hround
      obtain ⟨unit', hunit', hbare⟩ := exists_of_bare_eq hbefore.bare (unit_eq_ok.mp hunit)
      refine ⟨hbefore.addDep rfl (Nat.zero_le _) hadd,
        (latencySum_addDep hbefore.toTidy hadd).trans (Nat.add_le_add_left ?_ _)⟩
      have hlatency : unit.bare.latency = unit'.bare.latency := by rw [hbare]
      show exitLatency unit ≤
        (((l.graph.createExit l.lastBlock).units[sink]?).map (·.latency)).getD 0
      rw [hunit', Option.map_some, Option.getD_some, exitLatency]
      split
      · exact hlatency.le
      · exact Nat.zero_le _) hstart hattach
  have hsteps : (l.graph.createExit l.lastBlock).stepSum = l.graph.stepSum := stepSum_createUnit
  have hsum : (l.graph.createExit l.lastBlock).latencySum = l.graph.latencySum :=
    latencySum_createUnit
  rw [hsum] at hle
  refine ⟨hlast.spans, (stepSum_of_bare_eq hlast.bare).trans hsteps,
    hle.trans (Nat.add_le_add_left ?_ _)⟩
  rw [← hsteps]
  refine sum_latency_le_stepSum hnodup fun sink hsink => ?_
  rw [hclosed.size]
  exact Nat.lt_succ_of_lt (lt_size_of_getElem? (hmem.mp hsink).choose_spec.1)

end Lowering

namespace Graph

/-- The numbers of a graph together stay within a limit, with room for its entry and its exit. -/
structure Laden (limit distance : Nat) (g : Graph) : Prop where
  spans : g.Spans distance
  total : g.entrySlot + g.units.size + g.latencySum + distance ≤ limit + 2
  steps : g.stepSum ≤ limit

end Graph

namespace Lowering

open SlotScheduling.Graph

variable {σ : Type} {program : Program} {basic : BasicBlock} {g : Graph} {entrySlot : Nat}
  {now last : Journaled σ}

/-- The numbers in the graph of a block are no larger than what is known about its operations. -/
theorem laden_buildBlock (h : buildBlock program basic entrySlot now = .ok g last) :
    ∃ distance, g.Laden (program.load basic entrySlot) distance := by
  obtain ⟨l, middle, hlower, hfinish⟩ := Step.bind_eq_ok.mp h
  have hfinish := (Step.lift_eq_ok.mp hfinish).1
  have hlow := (ofBlock_lowerBlock hlower).1
  have hclosed := closes_finish hlow.toWellFormed hfinish
  obtain ⟨⟨entered, entry⟩, henter, hlower⟩ := Step.lift_bind_eq_ok.mp hlower
  cases (enter_start basic.id entrySlot).symm.trans henter
  obtain ⟨ops, hops, hlower⟩ := Step.lift_bind_eq_ok.mp hlower
  obtain ⟨⟨made, created⟩, middle', hcreate, hlower⟩ := Step.bind_eq_ok.mp hlower
  obtain ⟨attached, hattach, hlower⟩ := Step.lift_bind_eq_ok.mp hlower
  obtain ⟨rfl, _⟩ := Step.pure_eq_ok.mp (Step.note_bind _ _ _ ▸ hlower)
  have hstart := OfBlock.start basic.id entrySlot
  have hmade : made.OfBlock basic.id entrySlot := ofBlock_createOps hstart hcreate
  obtain ⟨hcounted, hlisted⟩ := counted_createOps hstart.toWellFormed
    (counted_start program basic.id entrySlot) hcreate
  rw [List.map_nil, List.nil_append] at hlisted
  rw [hlisted] at hcounted
  have hperm := perm_unitOrder hops
  obtain ⟨distance, hdistance⟩ : ∃ distance, distance =
      (basic.ops.map fun op => (program.operandDistances op).sum).sum := ⟨_, rfl⟩
  have hspans : ∀ pair ∈ created, (program.operandDistances pair.1).sum ≤ distance := by
    intro pair hpair
    have hop : pair.1 ∈ basic.ops := by
      rw [← hperm.mem_iff, ← hlisted]
      exact List.mem_map_of_mem hpair
    exact hdistance ▸ List.le_sum_of_mem (List.mem_map_of_mem hop)
  have hbase : Weighs distance made made :=
    ⟨hmade.toListed, tidy_createOps hstart (tidy_start basic.id entrySlot) hcreate,
      fun {user source _} hbundle => (nomatch (hcounted.unbound user source).symm.trans hbundle),
      rfl⟩
  obtain ⟨hweighs, hlatencies⟩ := weighs_attachUnits hbase hspans hattach
  obtain ⟨hfinal, hsteps, hle⟩ := weighs_finish hlow.toWellFormed hweighs hfinish
  have hloads : created.map (fun pair => (program.operandLatencies pair.1).sum) =
      ops.map fun op => (program.operandLatencies op).sum := by
    rw [← hlisted, List.map_map]
    rfl
  have hsize := size_eq_of_bare_eq hweighs.bare
  have hbare := stepSum_of_bare_eq hweighs.bare
  have hload := program.load_eq basic entrySlot
  rw [hloads, (hperm.map _).sum_eq, hcounted.latencies] at hlatencies
  rw [hcounted.steps, (hperm.map _).sum_eq] at hbare
  rw [hcounted.size, hperm.length_eq] at hsize
  have hentry := (ofBlock_buildBlock h).1.entrySlot
  have hclosedSize := hclosed.size
  dsimp only at hle hsteps hclosedSize
  exact ⟨distance, hfinal, by omega, by omega⟩

end Lowering

end SlotScheduling
