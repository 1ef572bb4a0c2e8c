import SlotScheduling.Proofs.Failures
import SlotScheduling.Proofs.Graph.Tidy
import SlotScheduling.Proofs.Placement.ControlSide

/-!
# What keeps a control path from being described

The system of the control path looks up the units that are listed, those that they depend on, and
the ends of the order and of the block.  In a well-formed graph all of them are there.  So the
system fails to be built only where an offset leaves its range.
-/

namespace SlotScheduling

open Failure (IsOverflow)

variable {g : Graph} {bounds : ControlBounds} {id : UnitId}

namespace Graph

theorem exists_unit (hid : id < g.units.size) : ∃ unit, g.unit id = .ok unit :=
  ⟨_, unit_eq_ok.mpr (Array.getElem?_eq_getElem hid)⟩

/-- A dependency is on a unit of the graph. -/
theorem WellFormed.source_lt (hg : g.WellFormed) {unit : ScheduleUnit}
    (hunit : g.units[id]? = some unit) {source : UnitId} (hsource : source ∈ unit.deps.keys) :
    source < g.units.size := by
  obtain ⟨producer, hproducer, -⟩ := hg.linked.mp ⟨unit, hunit, hsource⟩
  exact lt_size_of_getElem? hproducer

theorem WellFormed.user_lt (hg : g.WellFormed) {unit : ScheduleUnit}
    (hunit : g.units[id]? = some unit) {user : UnitId} (huser : user ∈ unit.uses) :
    user < g.units.size := by
  obtain ⟨consumer, hconsumer, -⟩ := hg.linked.mpr ⟨unit, hunit, huser⟩
  exact lt_size_of_getElem? hconsumer

end Graph

theorem DepEdge.failsAs_offset? (edge : DepEdge) (interval : Option Nat) :
    (edge.offset? interval).FailsAs IsOverflow := by
  unfold DepEdge.offset?
  split
  · split
    · exact Checked.failsAs_ok none
    · exact ((Offset.failsAs_check _).bind fun _ _ => Offset.failsAs_check _).map
  · exact Checked.failsAs_ok _

/-! ## Constraints -/

namespace ConstraintSystem

variable (sys : ConstraintSystem) (target source term : Term)

theorem failsAs_addGeq (weight : Int) : (sys.addGeq target source weight).FailsAs IsOverflow := by
  have hnode : ∀ term : Term, term.checkNode.FailsAs IsOverflow := by
    intro term
    unfold Term.checkNode
    split
    · exact Checked.failsAs_ok _
    · exact Checked.failsAs_overflow
  unfold addGeq
  refine (hnode target).bind fun _ _ => (hnode source).bind fun _ _ => ?_
  refine (Offset.failsAs_check _).bind fun raised _ => ?_
  refine (Offset.failsAs_check _).bind fun folded _ => ?_
  split
  · split
    · exact Checked.failsAs_ok _
    · exact Checked.failsAs_ok _
  · exact Checked.failsAs_ok _

theorem failsAs_addEdge (edge : DepEdge) (offset : Int) :
    (sys.addEdge target source edge offset).FailsAs IsOverflow := by
  unfold addEdge
  split
  · exact (sys.failsAs_addGeq target source offset).bind fun sys _ =>
      (Offset.failsAs_check _).bind fun weight _ => sys.failsAs_addGeq source target weight
  · exact sys.failsAs_addGeq target source offset

theorem failsAs_upperBound (bound : Int) : (sys.upperBound term bound).FailsAs IsOverflow :=
  (Offset.failsAs_check _).bind fun weight _ => sys.failsAs_addGeq (.const 0) term weight

theorem exists_term? (hid : id < g.units.size) : ∃ term?, sys.term? g id = .ok term? := by
  obtain ⟨unit, hunit⟩ := Graph.exists_unit hid
  unfold term?
  split
  · exact ⟨_, rfl⟩
  · rw [hunit]
    exact ⟨_, rfl⟩

theorem exists_ofFree {ids : List UnitId} (hids : ∀ id ∈ ids, id < g.units.size) :
    ∃ sys, ofFree g ids = .ok sys := by
  refine (Checked.exists_foldlM (P := fun _ => True) (fun id hid sys _ => ?_) trivial).imp
    fun _ h => h.1
  obtain ⟨unit, hunit⟩ := Graph.exists_unit (hids id hid)
  rw [hunit, Checked.ok_bind]
  split
  · exact ⟨_, rfl, trivial⟩
  · exact ⟨_, rfl, trivial⟩

end ConstraintSystem

open ConstraintSystem

/-! ## Looking through the data path -/

namespace LookThrough

variable {found : LookThrough} {sources : ControlSources}

theorem failsAs_addDep (unit : ScheduleUnit) {dep : UnitId × EdgeBundle}
    (hdep : dep.1 < g.units.size) :
    (addDep g bounds found unit sources dep).FailsAs IsOverflow := by
  obtain ⟨producer, hproducer⟩ := Graph.exists_unit hdep
  refine (dep.2.edge.failsAs_offset? _).bind fun offset? _ => ?_
  cases offset? with
  | none => exact Checked.failsAs_ok sources
  | some offset =>
      simp only [hproducer, Checked.ok_bind]
      split
      · exact Checked.failsAs_ok _
      · split
        · exact Checked.failsAs_ok sources
        · exact Checked.failsAs_foldlM (P := fun _ => True) (fun source _ sources _ =>
            ⟨(Offset.failsAs_check _).bind fun _ _ => Checked.failsAs_ok _, fun _ _ => trivial⟩)
            trivial

theorem exists_addUse (id : UnitId) {user : UnitId} (huser : user < g.units.size) :
    ∃ sources', addUse g id sources user = .ok sources' := by
  obtain ⟨consumer, hconsumer⟩ := Graph.exists_unit huser
  rw [addUse, hconsumer, Checked.ok_bind]
  split
  · exact ⟨sources, rfl⟩
  · split
    · exact ⟨_, rfl⟩
    · exact ⟨sources, rfl⟩

section

variable (hg : g.WellFormed)

include hg

theorem failsAs_combine (hid : id < g.units.size) :
    (combine g bounds found id).FailsAs IsOverflow := by
  obtain ⟨unit, hunit⟩ := Graph.exists_unit hid
  have hget := Graph.unit_eq_ok.mp hunit
  rw [combine, hunit, Checked.ok_bind]
  have hdeps : (unit.deps.entries.foldlM (addDep g bounds found unit) .empty).FailsAs
      IsOverflow :=
    Checked.failsAs_foldlM (P := fun _ => True) (fun dep hdep _ _ =>
      ⟨failsAs_addDep unit (hg.source_lt hget (List.mem_map_of_mem hdep)),
        fun _ _ => trivial⟩) trivial
  refine hdeps.bind fun sources _ => ?_
  split
  · exact Checked.failsAs_foldlM (P := fun _ => True) (fun user huser _ _ =>
      ⟨Checked.failsAs_of_exists (exists_addUse id (hg.user_lt hget huser)),
        fun _ _ => trivial⟩) trivial
  · exact Checked.failsAs_ok sources

theorem failsAs_resolve (depth : Nat) (path : List UnitId) (hid : id < g.units.size) :
    (resolve g bounds depth path found id).FailsAs IsOverflow := by
  induction depth generalizing path found id with
  | zero => exact Checked.failsAs_ok found
  | succ depth ih =>
      obtain ⟨unit, hunit⟩ := Graph.exists_unit hid
      unfold resolve
      split
      · exact Checked.failsAs_ok found
      · rw [hunit, Checked.ok_bind]
        have hsources : ∀ source ∈ unit.deps.keys.reverse, source < g.units.size :=
          fun source hmem => hg.source_lt (Graph.unit_eq_ok.mp hunit) (List.mem_reverse.mp hmem)
        refine Checked.FailsAs.bind (Checked.failsAs_foldlM (P := fun _ => True)
          (fun source hmem found _ => ⟨?_, fun _ _ => trivial⟩) trivial) fun inside _ =>
            (failsAs_combine hg hid).bind fun sources _ => Checked.failsAs_ok _
        obtain ⟨producer, hproducer⟩ := Graph.exists_unit (hsources source hmem)
        rw [hproducer, Checked.ok_bind]
        split
        · exact ih (id :: path) (hsources source hmem)
        · exact Checked.failsAs_ok found

theorem failsAs_sourcesOf (hid : id < g.units.size) :
    (sourcesOf g bounds found id).FailsAs IsOverflow :=
  (failsAs_resolve hg _ [] hid).bind fun _ _ => Checked.failsAs_ok _

end

end LookThrough

/-! ## The system -/

namespace ControlAssembly

variable {assembly : ControlAssembly} {target : Term} {offset : Int} {source : UnitId}

theorem failsAs_addDataDep (hg : g.WellFormed) (hfound : assembly.found.OnControl g)
    (hsource : source < g.units.size) :
    (addDataDep g bounds target offset assembly source).FailsAs IsOverflow := by
  refine (LookThrough.failsAs_sourcesOf hg hsource).bind fun (sources, found) hsources => ?_
  obtain ⟨honControl, -⟩ := LookThrough.onControl_sourcesOf hfound hsources
  refine Checked.FailsAs.bind (Checked.failsAs_foldlM (P := fun _ => True)
    (fun (control, distance) hentry sys _ => ⟨?_, fun _ _ => trivial⟩) trivial)
    fun system _ => Checked.failsAs_ok _
  obtain ⟨term?, hterm⟩ := sys.exists_term?
    (honControl control (List.mem_map_of_mem hentry)).lt_size
  simp only [hterm, Checked.ok_bind]
  cases term? with
  | none => exact Checked.failsAs_ok sys
  | some term => exact (Offset.failsAs_check _).bind fun _ _ => sys.failsAs_addGeq _ _ _

theorem failsAs_addControlDep (edge : DepEdge) (hsource : source < g.units.size) :
    (addControlDep g target offset assembly source edge).FailsAs IsOverflow := by
  obtain ⟨term?, hterm⟩ := assembly.system.exists_term? hsource
  rw [addControlDep, hterm, Checked.ok_bind]
  cases term? with
  | none => exact Checked.failsAs_ok assembly
  | some term =>
      exact (assembly.system.failsAs_addEdge target term edge offset).bind fun _ _ =>
        Checked.failsAs_ok _

theorem failsAs_addDep (hg : g.WellFormed) (unit : ScheduleUnit) {dep : UnitId × EdgeBundle}
    (hdep : dep.1 < g.units.size) (hfound : assembly.found.OnControl g) :
    (addDep g bounds unit target assembly dep).FailsAs IsOverflow := by
  obtain ⟨producer, hproducer⟩ := Graph.exists_unit hdep
  rw [addDep, hproducer, Checked.ok_bind]
  refine (dep.2.edge.failsAs_offset? _).bind fun offset? _ => ?_
  cases offset? with
  | none => exact Checked.failsAs_ok assembly
  | some offset =>
      simp only
      split
      · exact failsAs_addDataDep hg hfound hdep
      · exact failsAs_addControlDep dep.2.edge hdep

theorem failsAs_addUnit (hg : g.WellFormed) (hid : id < g.units.size)
    (hfound : assembly.found.OnControl g) :
    (addUnit g bounds assembly id).FailsAs IsOverflow := by
  obtain ⟨unit, hunit⟩ := Graph.exists_unit hid
  obtain ⟨term?, hterm⟩ := assembly.system.exists_term? hid
  have hdeps : ∀ (target : Term) (system : ConstraintSystem),
      (unit.deps.entries.foldlM (addDep g bounds unit target)
        { assembly with system }).FailsAs IsOverflow := by
    intro target system
    refine Checked.failsAs_foldlM (P := fun now : ControlAssembly => now.found.OnControl g)
      (fun dep hdep now hnow => ⟨?_, fun _ => onControl_addDep hnow⟩) hfound
    exact failsAs_addDep hg unit
      (hg.source_lt (Graph.unit_eq_ok.mp hunit) (List.mem_map_of_mem hdep)) hnow
  rw [addUnit, hunit, Checked.ok_bind, hterm, Checked.ok_bind]
  rcases term? with _ | ⟨index | value⟩
  · exact Checked.failsAs_ok assembly
  · exact (assembly.system.failsAs_addGeq _ _ _).bind fun system _ => hdeps _ system
  · exact hdeps _ assembly.system

end ControlAssembly

namespace ControlSystem

variable {sys : ConstraintSystem}

theorem failsAs_addEnd (hexit : ∀ {exit}, g.exitRoot = some exit → exit < g.units.size) :
    (addEnd g bounds sys).FailsAs IsOverflow := by
  unfold addEnd
  split
  next last exit _ hroot =>
    obtain ⟨term?, hterm⟩ := sys.exists_term? (hexit hroot)
    rw [hterm, Checked.ok_bind]
    cases term? with
    | none => exact Checked.failsAs_ok sys
    | some term => exact sys.failsAs_upperBound term _
  next => exact Checked.failsAs_ok sys

theorem failsAs_addNeighbours (terms : List Term) :
    (addNeighbours terms sys).FailsAs IsOverflow := by
  induction terms generalizing sys with
  | nil => exact Checked.failsAs_ok sys
  | cons first rest ih =>
      cases rest with
      | nil => exact Checked.failsAs_ok sys
      | cons second rest => exact (sys.failsAs_addGeq second first 1).bind fun _ _ => ih

theorem failsAs_addChain {chain : IssueChain} (hchain : ∀ id ∈ chain.units, id < g.units.size) :
    (addChain g bounds sys chain).FailsAs IsOverflow := by
  refine Checked.FailsAs.bind (Checked.failsAs_filterMapM fun id hid =>
    Checked.failsAs_of_exists (sys.exists_term? (hchain id hid))) fun terms _ => ?_
  refine (failsAs_addNeighbours terms).bind fun sys _ => ?_
  split
  · split
    · unfold addWindow
      split
      · exact sys.failsAs_addGeq _ _ _
      · exact Checked.failsAs_ok sys
    · exact Checked.failsAs_ok sys
  · exact Checked.failsAs_ok sys

/-- Only an offset that leaves its range keeps the system from being built. -/
theorem failsAs_build (hg : g.WellFormed)
    (hexit : ∀ {exit}, g.exitRoot = some exit → exit < g.units.size)
    (horder : ∀ {order chain}, bounds.order = some order → chain ∈ order.chains →
      ∀ id ∈ chain.units, id < g.units.size) : (build g bounds).FailsAs IsOverflow := by
  have hcontrol : ∀ id ∈ g.controlUnits, id < g.units.size :=
    fun id hid => (hg.control.mp hid).lt_size
  obtain ⟨base, hbase⟩ := exists_ofFree hcontrol
  have hunits : (g.controlUnits.foldlM (ControlAssembly.addUnit g bounds)
      { system := base, found := .start g }).FailsAs IsOverflow :=
    Checked.failsAs_foldlM (P := fun now : ControlAssembly => now.found.OnControl g)
      (fun id hid now hnow => ⟨ControlAssembly.failsAs_addUnit hg (hcontrol id hid) hnow,
        fun _ => ControlAssembly.onControl_addUnit hnow (hg.control.mp hid)⟩)
      LookThrough.onControl_start
  rw [build, hbase, Checked.ok_bind]
  refine hunits.bind fun assembly _ => (failsAs_addEnd hexit).bind fun ended _ => ?_
  split
  · exact Checked.failsAs_ok ended
  next order hsome =>
    exact Checked.failsAs_foldlM (P := fun _ => True) (fun chain hchain sys _ =>
      ⟨failsAs_addChain (horder hsome hchain), fun _ _ => trivial⟩) trivial

end ControlSystem

end SlotScheduling
