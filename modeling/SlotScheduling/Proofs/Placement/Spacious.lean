import SlotScheduling.Proofs.Dangling
import SlotScheduling.Proofs.Difference.Latest
import SlotScheduling.Proofs.Placement.Sized

/-!
# Room around the control path

Around a control path that is in its slots, the system of the data path can be built as long as
offsets leave room.  When units are placed late, the end of the block is a bound for each of them,
so that the system has slots for a solution or none at all.
-/

namespace SlotScheduling

namespace Graph

/-- No slot is later than that. -/
def EndsBy (g : Graph) (last : Nat) : Prop := ∀ {id slot}, g.slot? id = some slot → slot ≤ last

/-- A unit takes as long to finish in a graph of the same shape. -/
theorem exists_latency_eq {g g' : Graph} {id : UnitId} {unit : ScheduleUnit}
    (h : g'.skeleton = g.skeleton) (hunit : g'.units[id]? = some unit) :
    ∃ unit', g.units[id]? = some unit' ∧ unit.latency = unit'.latency := by
  obtain ⟨unit', hunit', hskeleton, -⟩ := exists_of_skeleton_eq h hunit
  have hlatency := congrArg ScheduleUnit.latency hskeleton
  exact ⟨unit', hunit', hlatency⟩

end Graph

namespace ConstraintSystem

variable {base sys : ConstraintSystem} {target source term : Term} {g : Graph} {id : UnitId}

theorem holds_of_term? (hwords : DataPath.HasWords g) (h : sys.term? g id = .ok (some term)) :
    sys.Holds term := by
  obtain ⟨hnonneg, hlt⟩ := isSlot_of_term? hwords h
  exact ⟨owned_of_term? h, by omega⟩

/-- The second system has more constraints than the first one, with exact weights. -/
structure ExtendsExactly (sys sys' : ConstraintSystem) : Prop extends sys.Extends sys' where
  exact : sys.HasExactWeights → sys'.HasExactWeights

theorem ExtendsExactly.refl (sys : ConstraintSystem) : sys.ExtendsExactly sys := ⟨.refl sys, id⟩

theorem ExtendsExactly.trans {sys'' : ConstraintSystem} (h : sys.ExtendsExactly sys')
    (h' : sys'.ExtendsExactly sys'') : sys.ExtendsExactly sys'' :=
  ⟨h.toExtends.trans h'.toExtends, h'.exact ∘ h.exact⟩

theorem exists_exact_addGeq {weight : Int} (hsize : sys.unknowns.size < 2 ^ 64)
    (htarget : sys.Holds target) (hsource : sys.Holds source) (hweight : weight.natAbs ≤ 2 ^ 52) :
    ∃ sys', sys.addGeq target source weight = .ok sys' ∧ sys.ExtendsExactly sys' := by
  obtain ⟨sys', hok, hgrows, hnew⟩ := exists_addGeq hsize htarget hsource hweight
  exact ⟨sys', hok, hgrows, fun hexact arc hmem => (hnew arc hmem).elim (hexact arc) fun h => h⟩

/-- An edge whose offset leaves room for the slots of its ends can be added. -/
theorem exists_addEdge {edge : DepEdge} {offset : Int} (hsize : sys.unknowns.size < 2 ^ 64)
    (htarget : sys.Holds target) (hsource : sys.Holds source) (hoffset : offset.natAbs ≤ 2 ^ 52) :
    ∃ sys', sys.addEdge target source edge offset = .ok sys' ∧ sys.ExtendsExactly sys' := by
  obtain ⟨middle, hmiddle, hgrows⟩ := exists_exact_addGeq hsize htarget hsource hoffset
  unfold addEdge
  split
  · have hneg : Offset.neg offset = .ok (-offset) :=
      Offset.exists_check (2 ^ 52) (by omega) (by decide)
    obtain ⟨last, hlast, hgrows'⟩ := exists_exact_addGeq (hgrows.keepsUnits ▸ hsize)
      (hgrows.holds hsource) (hgrows.holds htarget) (by omega : (-offset).natAbs ≤ 2 ^ 52)
    refine ⟨last, ?_, hgrows.trans hgrows'⟩
    rw [addEq, hmiddle, Checked.ok_bind, hneg, Checked.ok_bind, hlast]
  · exact ⟨middle, hmiddle, hgrows⟩

end ConstraintSystem

namespace DataPath

open ConstraintSystem SlotScheduling.Graph

/-- The control path of a block is in its slots, with room for what is placed around it.  What the
data path waits for is listed. -/
structure Spacious (block : BlockId) (entrySlot last : Nat) (latencies : List (UnitId × Nat))
    (g : Graph) : Prop extends OfBlock block entrySlot g, Tidy g where
  size : g.units.size < 2 ^ 64
  starts : g.entrySlot ≤ last
  issues : g.IssuesBy last
  offsets : ∀ {user source bundle}, g.bundle? user source = some bundle →
    ∃ offset?, bundle.edge.offset? (g.interval? block) = .ok offset? ∧
      ∀ offset ∈ offset?, offset.natAbs ≤ 2 ^ 52
  words : ∀ {user source bundle}, g.bundle? user source = some bundle →
    bundle.edge.latency < Word.count
  listed : ∀ {user source bundle}, g.bundle? user source = some bundle →
    g.IsData user ∨ g.IsData source → (source, bundle.edge.latency) ∈ latencies
  steps : ∀ {id : UnitId} {unit : ScheduleUnit}, g.units[id]? = some unit →
    last + (latencies.map Prod.snd).sum + unit.latency + 1 < Word.count

variable {g g' : Graph} {block : BlockId} {entrySlot last : Nat} {latencies : List (UnitId × Nat)}
  {options : SchedulingOptions} {base sys sys' : ConstraintSystem} {id : UnitId}
  {unit : ScheduleUnit} {term : Term}

/-! ## The system -/

section

variable (hg : Spacious block entrySlot last latencies g) (hslots : g.EndsBy last)
  (hfree : base.IsFree g g.dataUnits) (hgrows : base.ExtendsExactly sys)

include hg

theorem Spacious.last_lt : last + 1 < Word.count := by
  obtain ⟨unit, hunit, -⟩ := hg.root
  have := hg.steps hunit
  omega

theorem Spacious.exists_endSlot : ∃ slot, g.endSlot block = .ok (some slot) ∧ slot ≤ last := by
  obtain ⟨unit, hunit, hcontrol⟩ := hg.root
  obtain ⟨slot, hslot, -⟩ := hg.issues hg.root
  have htaken : g.IsTaken block slot := ⟨_, unit, hunit, hcontrol, (hg.units hunit).block,
    (slot?_eq hunit).symm.trans hslot⟩
  obtain ⟨end_, hend, -⟩ := htaken.exists_endSlot hg.toListed
  refine ⟨end_, hend, ?_⟩
  obtain ⟨id, hid, unit, hunit, -, hslot⟩ := exists_unit_of_endSlot hend
  obtain ⟨slot', hslot', hle⟩ := hg.issues (hg.control.mp hid)
  rw [slot?_eq hunit, hslot] at hslot'
  cases hslot'
  exact hle

theorem Spacious.exists_startSlot (hunit : g.units[id]? = some unit) :
    ∃ first, g.startSlot unit.block = .ok first := by
  obtain ⟨entry, hentry, -⟩ := hg.root
  rw [startSlot, (hg.units hunit).block, hg.entry]
  exact ⟨entry.slot, by simp only [unit_eq_ok.mpr hentry, Checked.ok_bind]; rfl⟩

omit hslots in
include hfree hgrows in
theorem Spacious.size_lt : sys.unknowns.size < 2 ^ 64 := by
  rw [hgrows.keepsUnits]
  exact (hfree.size_le fun id hid => (hg.data.mp hid).lt_size).trans_lt hg.size

include hslots

theorem Spacious.hasWords : HasWords g := fun hslot => by
  have hle := hslots hslot
  have hlast := hg.last_lt
  omega

include hfree hgrows

theorem Spacious.exists_addWindow (options : SchedulingOptions)
    (hunit : g.units[id]? = some unit) (hterm : sys.Holds term) :
    ∃ sys', addWindow g options id unit term sys = .ok sys' ∧ sys.ExtendsExactly sys' := by
  have hblock := (hg.units hunit).block
  have hlast := hg.last_lt
  obtain ⟨first, hfirst⟩ := hg.exists_startSlot hunit
  have hle : first.getD g.entrySlot ≤ last := by
    rw [eq_of_startSlot hfirst, hblock, hg.entry, Option.bind_some]
    cases hslot : g.slot? g.entryRoot with
    | none => exact hg.starts
    | some slot => exact hslots hslot
  have hsize := hg.size_lt hfree hgrows
  unfold Word.count at hlast
  have hzero : ∀ {sys : ConstraintSystem}, sys.Holds (.const 0) := holds_const (by decide)
  obtain ⟨middle, hmiddle, hgrows'⟩ := exists_exact_addGeq hsize hterm hzero
    (by omega : ((first.getD g.entrySlot : Nat) : Int).natAbs ≤ 2 ^ 52)
  rw [addWindow, hfirst, Checked.ok_bind]
  simp only [lowerBound, hmiddle, Checked.ok_bind]
  split
  · obtain ⟨end_, hend, hle'⟩ := hg.exists_endSlot
    have hneg : Offset.neg (end_ : Int) = .ok (-(end_ : Int)) :=
      Offset.exists_check (2 ^ 52) (by omega) (by decide)
    obtain ⟨sys', hok, hgrows''⟩ := exists_exact_addGeq (hgrows'.keepsUnits ▸ hsize) hzero
      (hgrows'.holds hterm) (by omega : (-(end_ : Int)).natAbs ≤ 2 ^ 52)
    have hlastSlot : lastSlot g id unit.block = .ok end_ := by
      rw [lastSlot, hblock, hend]
      rfl
    exact ⟨sys', by simp only [hlastSlot, Checked.ok_bind, upperBound, hneg, hok],
      hgrows'.trans hgrows''⟩
  · exact ⟨middle, rfl, hgrows'⟩

theorem Spacious.exists_addDep {dep : UnitId × EdgeBundle} (hunit : g.units[id]? = some unit)
    (hterm : sys.Holds term) (hdep : dep ∈ unit.deps.entries) :
    ∃ sys', addDep g unit term sys dep = .ok sys' ∧ sys.ExtendsExactly sys' := by
  have hbundle : g.bundle? id dep.1 = some dep.2 := (bundle?_eq hunit dep.1).trans
    (Table.get?_of_mem_entries (hg.tidy hunit).nodup hdep)
  obtain ⟨offset?, hoffset, hsmall⟩ := hg.offsets hbundle
  obtain ⟨producer, hproducer⟩ := hg.toWellFormed.exists_source hunit hdep
  obtain ⟨term?, hsource⟩ := sys.exists_term? (lt_size_of_getElem? hproducer)
  rw [addDep, (hg.units hunit).block, hoffset, Checked.ok_bind]
  cases offset? with
  | none => exact ⟨sys, rfl, .refl sys⟩
  | some offset =>
      simp only [hsource, Checked.ok_bind]
      cases term? with
      | none => exact ⟨sys, rfl, .refl sys⟩
      | some source =>
          exact exists_addEdge (hg.size_lt hfree hgrows) hterm
            (holds_of_term? (hg.hasWords hslots) hsource) (hsmall offset rfl)

theorem Spacious.exists_addUse {user : UnitId} (hunit : g.units[id]? = some unit)
    (hterm : sys.Holds term) (huser : user ∈ unit.uses) :
    ∃ sys', addUse g id term sys user = .ok sys' ∧ sys.ExtendsExactly sys' := by
  obtain ⟨consumer, hconsumer⟩ := exists_unit (hg.toWellFormed.user_lt hunit huser)
  have hget := unit_eq_ok.mp hconsumer
  obtain ⟨term?, htarget⟩ := sys.exists_term? (lt_size_of_getElem? hget)
  rw [addUse, hconsumer, Checked.ok_bind]
  split
  next slot bundle _ hdep =>
    obtain ⟨offset?, hoffset, hsmall⟩ := hg.offsets ((bundle?_eq hget id).trans hdep)
    rw [(hg.units hget).block, hoffset, Checked.ok_bind]
    cases offset? with
    | none => exact ⟨sys, rfl, .refl sys⟩
    | some offset =>
        simp only [htarget, Checked.ok_bind]
        cases term? with
        | none => exact ⟨sys, rfl, .refl sys⟩
        | some target =>
            exact exists_addEdge (hg.size_lt hfree hgrows)
              (holds_of_term? (hg.hasWords hslots) htarget) hterm (hsmall offset rfl)
  next => exact ⟨sys, rfl, .refl sys⟩

theorem Spacious.exists_addUnit (options : SchedulingOptions) (hid : g.IsData id) :
    ∃ sys', addUnit g options sys id = .ok sys' ∧ base.ExtendsExactly sys' := by
  obtain ⟨unit, hunit, -⟩ := hid
  obtain ⟨term?, hterm⟩ := sys.exists_term? (lt_size_of_getElem? hunit)
  rw [addUnit, unit_eq_ok.mpr hunit, Checked.ok_bind]
  simp only [hterm, Checked.ok_bind]
  split
  next term _ =>
    have hholds : sys.Holds term := holds_of_term? (hg.hasWords hslots) hterm
    rw [(hg.units hunit).unfrozen, if_neg Bool.false_ne_true]
    obtain ⟨started, hstarted, hstart⟩ :=
      hg.exists_addWindow hslots hfree hgrows options hunit hholds
    obtain ⟨middle, hmiddle, hdeps⟩ := Checked.exists_foldlM (P := sys.ExtendsExactly)
      (fun dep hdep before hbefore => (hg.exists_addDep hslots hfree (hgrows.trans hbefore) hunit
        (hbefore.holds hholds) hdep).imp fun _ h => ⟨h.1, hbefore.trans h.2⟩) hstart
    obtain ⟨last, hlast, huses⟩ := Checked.exists_foldlM (P := sys.ExtendsExactly)
      (fun user huser before hbefore => (hg.exists_addUse hslots hfree (hgrows.trans hbefore) hunit
        (hbefore.holds hholds) huser).imp fun _ h => ⟨h.1, hbefore.trans h.2⟩) hdeps
    exact ⟨last, by simp only [hstarted, Checked.ok_bind, hmiddle, hlast], hgrows.trans huses⟩
  next => exact ⟨sys, rfl, hgrows⟩

omit hfree hgrows in
/-- The system can be built, and its weights are exact. -/
theorem Spacious.exists_build (options : SchedulingOptions) :
    ∃ sys, build g options = .ok sys ∧ sys.HasExactWeights := by
  obtain ⟨base, hbase⟩ := exists_ofFree fun id hid => (hg.data.mp hid).lt_size
  have hfree := isFree_ofFree hbase
  obtain ⟨sys, hsys, hgrows⟩ := Checked.exists_foldlM (P := base.ExtendsExactly)
    (fun id hid sys hgrows => hg.exists_addUnit hslots hfree hgrows options (hg.data.mp hid))
    (.refl base)
  refine ⟨sys, by rw [build, hbase, Checked.ok_bind, hsys], hgrows.exact fun arc hmem => ?_⟩
  rw [hfree.arcs] at hmem
  cases hmem

end

/-! ## Bounds of the variables -/

/-- The window of a unit bounds its variable from below. -/
theorem exists_lower_of_addWindow {index : Nat} (howned : (Term.var index).Owned sys)
    (h : addWindow g options id unit (.var index) sys = .ok sys') :
    ∃ arc ∈ sys'.arcs, arc.source = 0 ∧ arc.target = index + 1 ∧ 0 ≤ arc.weight := by
  obtain ⟨first, -, h⟩ := Checked.bind_eq_ok.mp h
  obtain ⟨middle, hmiddle, h⟩ := Checked.bind_eq_ok.mp h
  have hgrows : middle.Extends sys' := by
    split at h
    · obtain ⟨last, -, h⟩ := Checked.bind_eq_ok.mp h
      exact extends_upperBound h ((extends_lowerBound hmiddle howned).owned howned)
    · obtain rfl := Checked.pure_eq_ok.mp h
      exact .refl _
  refine ⟨_, hgrows.arcs (mem_arcs_addGeq hmiddle (Nat.succ_ne_zero index)), rfl, rfl, ?_⟩
  simp only [Term.shift]
  omega

/-- The window of a unit that is placed late bounds its variable from above. -/
theorem exists_upper_of_addWindow {index : Nat} (hwords : HasWords g)
    (hlate : options.dataPathLate = true)
    (h : addWindow g options id unit (.var index) sys = .ok sys') :
    ∃ arc ∈ sys'.arcs, arc.source = index + 1 ∧ arc.target = 0 ∧ -Word.count < arc.weight := by
  obtain ⟨first, -, h⟩ := Checked.bind_eq_ok.mp h
  obtain ⟨middle, -, h⟩ := Checked.bind_eq_ok.mp h
  rw [if_pos hlate] at h
  obtain ⟨last, hlast, h⟩ := Checked.bind_eq_ok.mp h
  obtain ⟨_, _, _, hend, _, hslot⟩ := exists_unit_of_endSlot (lastSlot_eq_ok hlast)
  have hword := hwords ((slot?_eq hend).trans hslot)
  refine ⟨_, mem_arcs_addGeq (upperBound_eq_ok h) (Nat.succ_ne_zero index).symm, rfl, rfl, ?_⟩
  simp only [Term.shift]
  omega

section

variable {bounds : Nat → Arc → Prop}
  (hunfrozen : ∀ {id : UnitId} {unit : ScheduleUnit}, g.units[id]? = some unit →
    unit.fixedTiming = false)
  (hwindow : ∀ {id : UnitId} {unit : ScheduleUnit} {index : Nat} {sys sys' : ConstraintSystem},
    (Term.var index).Owned sys → addWindow g options id unit (.var index) sys = .ok sys' →
      ∃ arc ∈ sys'.arcs, bounds index arc)

include hunfrozen hwindow

theorem exists_arc_of_addUnit {index : Nat} (hgrows : base.Extends sys)
    (hunit : g.units[id]? = some unit) (hslot : unit.slot = none)
    (hindex : base.variableOf? id = some index) (h : addUnit g options sys id = .ok sys') :
    ∃ arc ∈ sys'.arcs, bounds index arc := by
  rcases addUnit_cases hunit h with
    ⟨index', started, middle, _, hindex', howned, hstarted, hmiddle, hend⟩ | ⟨rfl, hnone⟩
  · rw [hgrows.variableOf?_eq, hindex] at hindex'
    obtain rfl := Option.some.inj hindex'
    have hstart := (adds_start howned hstarted).grows
    have hdeps := (adds_addDeps (hgrows.trans hstart) (hstart.owned howned) hmiddle).grows
    have hboth := hstart.trans hdeps
    have huses := (adds_addUses (hgrows.trans hboth) (hboth.owned howned) hend).grows
    rw [hunfrozen hunit, if_neg Bool.false_ne_true] at hstarted
    obtain ⟨arc, hmem, harc⟩ := hwindow howned hstarted
    exact ⟨arc, (hdeps.trans huses).arcs hmem, harc⟩
  · rw [← hgrows.variableOf?_eq, hnone hslot] at hindex
    cases hindex

/-- If no unit is frozen, what bounds a variable in the window of its unit bounds each variable. -/
theorem exists_arc_of_build (hg : g.Listed) (h : build g options = .ok sys) :
    ∀ index < sys.unknowns.size, ∃ arc ∈ sys.arcs, bounds index arc := by
  obtain ⟨base, hbase, h⟩ := Checked.bind_eq_ok.mp h
  have hfree := isFree_ofFree hbase
  obtain ⟨hgrows, hbounds⟩ := extends_foldlM (fun sys => sys)
    (Q := fun id sys => ∀ index, base.variableOf? id = some index →
      ∃ arc ∈ sys.arcs, bounds index arc)
    (fun id before after hextends hbefore index hindex => by
      obtain ⟨arc, hmem, harc⟩ := hbefore index hindex
      exact ⟨arc, hextends.arcs hmem, harc⟩)
    (fun id before after hbefore hround => by
      refine ⟨(adds_addUnit hbefore hround).grows, fun index hindex => ?_⟩
      obtain ⟨hmem, hslot⟩ :=
        hfree.slot (Array.mem_of_getElem? (variableOf?_eq_some hindex))
      obtain ⟨unit, hunit, -⟩ := hg.data.mp hmem
      exact exists_arc_of_addUnit hunfrozen hwindow hbefore hunit
        ((slot?_eq hunit).symm.trans hslot) hindex hround) h
  intro index hindex
  rw [hgrows.keepsUnits] at hindex
  have hget := Array.getElem?_eq_getElem hindex
  obtain ⟨hmem, -⟩ := hfree.slot (Array.mem_of_getElem? hget)
  exact hbounds _ hmem index (ControlSystem.variableOf?_of_getElem? hfree.nodup hget)

end

/-- When units are placed late and none is frozen, every variable is bounded from above. -/
theorem boundedAbove_build (hg : g.Listed) (hwords : HasWords g)
    (hunfrozen : ∀ {id : UnitId} {unit : ScheduleUnit}, g.units[id]? = some unit →
      unit.fixedTiming = false)
    (hlate : options.dataPathLate = true) (h : build g options = .ok sys) : sys.BoundedAbove :=
  exists_arc_of_build hunfrozen (fun _ => exists_upper_of_addWindow hwords hlate) hg h

end DataPath

end SlotScheduling
