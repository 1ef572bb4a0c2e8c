import SlotScheduling.Proofs.Graph.Loads
import SlotScheduling.Proofs.Pipeline.Attempts
import SlotScheduling.Proofs.Placement.Compressed

/-!
# Control paths within a limit

Where the numbers of a block together stay within a limit, its control path can always be described,
whichever way it starts over and up to a horizon for its interval, and every unit that is placed
issues by a last slot.
-/

namespace SlotScheduling

/-- No interval and no critical path of a block with small numbers goes beyond. -/
def horizon : Nat := 2 ^ 22

theorem DepEdge.exists_offset_le {edge : DepEdge} {repeats : Option Nat} {ahead distance cap : Nat}
    (hlatency : edge.latency ≤ ahead) (hdistance : edge.distance ≤ distance)
    (hrepeats : ∀ interval ∈ repeats, interval ≤ cap) (hroom : ahead + distance * cap ≤ 2 ^ 62) :
    ∃ offset?, edge.offset? repeats = .ok offset? ∧
      ∀ offset ∈ offset?, offset ≤ (ahead : Int) ∧ -((distance * cap : Nat) : Int) ≤ offset := by
  rcases Nat.eq_zero_or_pos edge.distance with hlocal | hcarried
  · refine ⟨_, offset?_of_distance_eq_zero hlocal _, fun offset hoffset => ?_⟩
    cases hoffset
    omega
  · have hspans : edge.isLoopCarried = true := decide_eq_true hcarried
    unfold DepEdge.offset?
    rw [if_pos hspans]
    cases repeats with
    | none => exact ⟨none, rfl, fun offset hoffset => by cases hoffset⟩
    | some interval =>
        have hspan : edge.distance * interval ≤ distance * cap :=
          Nat.mul_le_mul hdistance (hrepeats interval rfl)
        have hbound : Offset.bound = 2 ^ 63 := rfl
        have hleast : edge.minOffset interval = .ok (edge.offsetAt interval) :=
          minOffset_of_not_outreaches (by omega) (not_outreaches_of_lt (by omega))
        refine ⟨some (edge.offsetAt interval), by simp only [hleast]; rfl, fun offset hoffset => ?_⟩
        cases hoffset
        rw [offsetAt, ← Nat.cast_mul]
        omega

/-- The bounds are those of an attempt at an interval on the graph of a block. -/
structure ControlBounds.Attempts (bounds : ControlBounds) (block : BlockId) (exit : UnitId)
    (interval : Nat) (h : Graph) : Prop where
  repeats : ∀ known ∈ bounds.interval? h block, known = interval
  ends : ∀ last ∈ bounds.criticalPathEnd, last ≤ horizon
  chained : ∀ {order chain}, bounds.order = some order → chain ∈ order.chains →
    chain.block = block ∧ ∀ id ∈ chain.units, h.IsControl id ∧ id ≠ exit

/-- The values of a solution are the slots that are placed for it. -/
theorem ControlSystem.slotsOf_of_placeAll {g g' : Graph} {bounds : ControlBounds}
    {sys : ConstraintSystem} {placed : List (UnitId × Nat)} (hbuild : build g bounds = .ok sys)
    (hplaced : sys.earliest = .ok placed) (hplace : g.placeAll placed = .ok g') :
    slotsOf g sys (ConstraintSystem.valuesOf placed) = g'.slotAt := by
  obtain ⟨base, hdescribes⟩ := exists_describes hbuild
  have hplaces := hdescribes.places hplaced hplace
  funext id
  rw [slotsOf, ConstraintSystem.valueOf?_congr hdescribes.grows.keepsUnits, ← hplaces id,
    Graph.slotAt]
  cases g'.slot? id <;> rfl

/-- What is found for a unit is the slot it is placed in. -/
theorem ControlSystem.slot?_of_placeAll {g g' : Graph} {bounds : ControlBounds}
    {sys : ConstraintSystem} {placed : List (UnitId × Nat)} {id : UnitId} {slot : Nat}
    (hbuild : build g bounds = .ok sys) (hplaced : sys.earliest = .ok placed)
    (hplace : g.placeAll placed = .ok g') (hmem : (id, slot) ∈ placed) :
    g'.slot? id = some slot := by
  obtain ⟨base, hdescribes⟩ := exists_describes hbuild
  have hids := (ConstraintSystem.earliest_eq_ok
    (hdescribes.grows.closed hdescribes.free.closed) hplaced).2.1
  rw [hdescribes.grows.keepsUnits] at hids
  exact Graph.slot?_placeAll (hids ▸ hdescribes.free.nodup) hmem hplace

namespace Graph

variable {g h : Graph} {bounds : ControlBounds} {block : BlockId}
  {entrySlot interval limit distance : Nat} {id exit source user : UnitId} {bundle : EdgeBundle}

/-- All latencies that are waited for. -/
def waitsFor (g : Graph) : List (UnitId × Nat) :=
  g.units.toList.flatMap fun unit => unit.deps.entries.map fun dep => (dep.1, dep.2.edge.latency)

theorem mem_waitsFor (hbundle : g.bundle? user source = some bundle) :
    (source, bundle.edge.latency) ∈ g.waitsFor := by
  obtain ⟨unit, hunit, hdep⟩ := exists_of_bundle? hbundle
  refine List.mem_flatMap.mpr ⟨unit, Array.mem_toList_iff.mpr (Array.mem_of_getElem? hunit), ?_⟩
  exact List.mem_map.mpr ⟨_, Table.mem_entries_of_get?_eq_some hdep, rfl⟩

theorem sum_waitsFor (g : Graph) : (g.waitsFor.map Prod.snd).sum = g.latencySum := by
  simp only [waitsFor, latencySum, List.map_flatMap, List.map_map, Table.values]
  rfl

/-- All control units have slots, and none is later than that. -/
def IssuesBy (g : Graph) (last : Nat) : Prop :=
  ∀ {id}, g.IsControl id → ∃ slot, g.slot? id = some slot ∧ slot ≤ last

theorem IssuesBy.mono {last last' : Nat} (h : g.IssuesBy last) (hle : last ≤ last') :
    g.IssuesBy last' := fun hid => (h hid).imp fun _ hslot => ⟨hslot.1, hslot.2.trans hle⟩

/-- Where the control path ends at the latest when it starts over with an interval. -/
def deadline (g : Graph) (interval : Nat) : Nat :=
  g.entrySlot + interval + (g.latencySum + g.controlUnits.length) + max interval g.latencySum

/-- As many offsets as there are units add up within the range. -/
theorem Laden.room (hladen : g.Laden limit distance) (hlimit : limit < 2 ^ 20) :
    (horizon + distance * horizon) * (g.units.size + 1) ≤ 2 ^ 61 := by
  have hsum : (distance + 1) + (g.units.size + 1) ≤ 2 ^ 20 + 3 := by
    have := hladen.total
    omega
  have hproduct : 4 * ((distance + 1) * (g.units.size + 1)) ≤ (2 ^ 20 + 3) ^ 2 := by
    rw [← mul_assoc]
    exact (four_mul_le_sq_add _ _).trans (Nat.pow_le_pow_left hsum 2)
  have hfactor : (horizon + distance * horizon) * (g.units.size + 1) =
      2 ^ 22 * ((distance + 1) * (g.units.size + 1)) := by
    unfold horizon
    ring
  rw [hfactor]
  omega

/-- No edge waits for longer than all latencies or one interval. -/
theorem Widened.edge_le (hwidened : Widened interval g h) (hg : Enclosed block entrySlot exit g)
    (hladen : g.Laden limit distance) (hbundle : h.bundle? user source = some bundle) :
    bundle.edge.latency ≤ max interval g.latencySum ∧ bundle.edge.distance ≤ distance := by
  obtain ⟨found, hfound, hdistance, hlatency⟩ := hwidened.exists_bundle hg hbundle
  have hle := latency_le_latencySum hfound
  refine ⟨?_, hdistance.trans_le (hladen.spans hfound)⟩
  rcases hlatency with rfl | heq
  · omega
  · omega

section

variable (hg : Enclosed block entrySlot exit g) (hrestart : Restarted interval g h)

include hg hrestart

omit hg in
/-- After a restart, only the entry and the loop operation have slots. -/
theorem Restarted.slot_le {slot : Nat} (hid : h.IsControl id) (hslot : h.slot? id = some slot) :
    slot ≤ g.entrySlot + interval := by
  have hcontrol : g.IsControl id :=
    isControl_of_outline_eq (outline_eq_of_skeleton_eq hrestart.skeleton) hid
  by_cases hroot : id = g.entryRoot
  · subst hroot
    rw [hrestart.entry] at hslot
    cases hslot
    omega
  · by_cases hloopOp : 0 < interval ∧ g.loopOp = some id
    · rw [hrestart.loop hloopOp.1 hloopOp.2] at hslot
      cases hslot
      exact le_rfl
    · rw [hrestart.cleared hcontrol hroot fun hpos heq => hloopOp ⟨hpos, heq⟩] at hslot
      cases hslot

variable (hladen : g.Laden limit distance) (hlimit : limit < 2 ^ 20)
  (hinterval : interval ≤ horizon) (hbounds : bounds.Attempts block exit interval h)

include hladen hlimit hinterval hbounds

theorem Restarted.ready : ControlSystem.Ready h bounds horizon (distance * horizon) := by
  have hblock := hrestart.ofBlock hg
  have houtline := outline_eq_of_skeleton_eq hrestart.skeleton
  have hsize := size_eq_of_skeleton_eq hrestart.skeleton
  have htidy := hg.toTidy.of_skeleton_eq hrestart.skeleton
  have htotal := hladen.total
  have hentrySlot : h.entrySlot = g.entrySlot := hblock.entrySlot.trans hg.entrySlot.symm
  have hhorizon : horizon = 2 ^ 22 := rfl
  have hword : Word.count = 2 ^ 32 := rfl
  have hroom := hladen.room hlimit
  have hrepeats : ∀ {other}, other = block →
      ∀ known ∈ bounds.interval? h other, known ≤ horizon := by
    rintro other rfl known hknown
    exact hbounds.repeats known hknown ▸ hinterval
  refine { toWellFormed := hblock.toWellFormed, toTidy := htidy,
           unfrozen := fun hunit => (hblock.units hunit).unfrozen, within := ?within,
           room := ?room, light := ?light, size := ?size, exit := ?exit, slots := ?slots,
           entrySlot := ?entrySlot, ends := ?ends, chained := ?chained, intervals := ?intervals }
  case within =>
    intro id unit hunit dep hdep
    have hget := Table.get?_of_mem_entries (htidy.tidy hunit).nodup hdep
    obtain ⟨hlatency, hdistance⟩ :=
      hrestart.toWidened.edge_le hg hladen ((bundle?_eq hunit dep.1).trans hget)
    refine DepEdge.exists_offset_le (hlatency.trans ?_) hdistance
      (hrepeats (hblock.units hunit).block) ?_
    · omega
    · rw [Nat.mul_succ] at hroom
      omega
  case room => rwa [hsize]
  case light =>
    rw [hsize, hhorizon]
    omega
  case size => omega
  case exit =>
    intro exit' hexit'
    obtain rfl : exit = exit' := Option.some.inj
      (hg.exitRoot.symm.trans ((exitRoot_of_skeleton_eq hrestart.skeleton).symm.trans hexit'))
    exact isControl_of_outline_eq houtline.symm hg.exitControl
  case slots =>
    intro id slot hid hslot
    have := hrestart.slot_le hid hslot
    omega
  case entrySlot => omega
  case ends =>
    intro last hlast
    have := hbounds.ends last hlast
    omega
  case chained => exact fun horder hchain hid => ((hbounds.chained horder hchain).2 _ hid).1
  case intervals =>
    intro order chain known horder hchain hknown
    have := hrepeats (hbounds.chained horder hchain).1 known hknown
    omega

omit hlimit hinterval in
/-- What flows through the control path: no latency twice, and the exit waits for no more than all
latencies or one interval. -/
theorem Restarted.flows : ControlSystem.Flows h bounds exit g.waitsFor (g.entrySlot + interval)
    (max interval g.latencySum) := by
  have hblock := hrestart.ofBlock hg
  have houtline := outline_eq_of_skeleton_eq hrestart.skeleton
  have hexit := (exitRoot_of_skeleton_eq hrestart.skeleton).trans hg.exitRoot
  have hentrySlot : h.entrySlot = g.entrySlot := hblock.entrySlot.trans hg.entrySlot.symm
  refine { exitRoot := hexit, exitControl := isControl_of_outline_eq houtline.symm hg.exitControl,
           unused := ?unused, latencies := ?latencies, waits := ?waits,
           entrySlot := hentrySlot.le.trans (Nat.le_add_right _ _),
           slots := hrestart.slot_le, chained := ?chained }
  case unused => exact fun user hdepends => hg.final (dependsOn_of_outline_eq houtline hdepends)
  case latencies =>
    intro user source bundle hne hbundle
    rw [hrestart.bundle?_of_ne hg hne] at hbundle
    exact mem_waitsFor hbundle
  case waits =>
    intro source offset hasks
    obtain ⟨bundle, slack, hbundle, hslack, rfl⟩ := hasks.exists_slack
    have hle := (hrestart.toWidened.edge_le hg hladen hbundle).1
    omega
  case chained => exact fun horder hchain hid => (hbounds.chained horder hchain).2 _ hid

/-- An attempt can always be made.  It places the control units in time, or its constraints have no
solution. -/
theorem Restarted.exists_earliest : ∃ sys, ControlSystem.build h bounds = .ok sys ∧
    ((∃ slots placed, sys.earliest = .ok slots ∧ h.placeAll slots = .ok placed ∧
        ControlSystem.Placed h bounds placed ∧ placed.IssuesBy (g.deadline interval)) ∨
      ∃ reason, sys.earliest = .error (.error (.infeasible reason))) := by
  have hready := hrestart.ready hg hladen hlimit hinterval hbounds
  have hflows := hrestart.flows hg hladen hbounds
  obtain ⟨sys, found, hbuild, -, -, -⟩ := ControlSystem.exists_build_squeezes hready
  obtain ⟨base, hdescribes⟩ := ControlSystem.exists_describes hbuild
  refine ⟨sys, hbuild, ?_⟩
  rcases ConstraintSystem.earliest_cases (hdescribes.grows.closed hdescribes.free.closed) with
    ⟨slots, hslots⟩ | hreason
  · obtain ⟨placed, hplace⟩ := ControlSystem.exists_placeAll hready.toListed hbuild hslots
    have hplaced := hdescribes.placed hslots hplace
    refine Or.inl ⟨slots, placed, hslots, hplace, hplaced, fun {id} hid => ?_⟩
    have hid := (isControl_iff_of_frame_eq hplaced.frame).mp hid
    obtain ⟨slot, hslot⟩ := hplaced.scheduled (hready.control.mpr hid)
    have hle := ControlSystem.le_lastSlot_of_earliest hready hflows hbuild hslots hid
    rw [ControlSystem.slotsOf_of_placeAll hbuild hslots hplace, slotAt_eq hslot,
      ControlSystem.lastSlot, sum_waitsFor,
      controlUnits_eq_of_outline_eq (outline_eq_of_skeleton_eq hrestart.skeleton)] at hle
    exact ⟨slot, hslot, Int.ofNat_le.mp hle⟩
  · exact Or.inr hreason

end

theorem Listed.length_controlUnits_le (hg : g.Listed) :
    g.controlUnits.length ≤ g.units.size := by
  have hsubset : g.controlUnits ⊆ List.range g.units.size :=
    fun id hid => List.mem_range.mpr (hg.control.mp hid).lt_size
  simpa using (List.subperm_of_subset hg.controlNodup hsubset).length_le

/-- With small numbers the control path ends in time, whatever the interval. -/
theorem Laden.deadline_le (hladen : g.Laden limit distance) (hg : g.Listed)
    (hlimit : limit < 2 ^ 20) (hinterval : interval ≤ horizon) :
    g.deadline interval ≤ 3 * horizon := by
  have hcontrol := hg.length_controlUnits_le
  have htotal := hladen.total
  have hhorizon : horizon = 2 ^ 22 := rfl
  unfold deadline
  omega

/-- Units that issue one after the other are control units, and the exit is none of them. -/
theorem Enclosed.exists_issueOrder (hg : Enclosed block entrySlot exit g) :
    ∃ order, IssueOrder.build g = .ok order ∧ ∀ chain ∈ order.chains, chain.block = block ∧
      ∀ id ∈ chain.units, g.IsControl id ∧ id ≠ exit := by
  obtain ⟨order, horder, hchains⟩ := IssueOrder.exists_build hg.toOfBlock
  refine ⟨order, horder, fun chain hchain => ?_⟩
  obtain ⟨hblock, -, hcontrol, funcUnit, hshared, hbound⟩ := hchains chain hchain
  refine ⟨hblock, fun id hid => ⟨hcontrol id hid, ?_⟩⟩
  rintro rfl
  obtain ⟨unit, hunit, -⟩ := hg.exitControl
  have htrivial := (hg.exitUnit hunit).1
  rw [hbound _ hid unit hunit, hshared] at htrivial
  cases htrivial

end Graph

end SlotScheduling
