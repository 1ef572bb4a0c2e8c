import SlotScheduling.Proofs.Graph.Entered
import SlotScheduling.Proofs.Legality
import SlotScheduling.Proofs.Region.Settled

/-!
# Blocks on their own

A block that is lowered and scheduled on its own has slots and classes in the end, and
is the graph that it was lowered to in everything else, but for the edges of its exit.
-/

namespace SlotScheduling

namespace Graph

variable {g g' : Graph} {block : BlockId} {entrySlot : Nat} {options : SchedulingOptions}
  {now last : Journaled Graph} {result : PUnit}

/-- The skeleton of a graph, whether or not its loop is pipelined. -/
def shape (g : Graph) : Graph := g.disablePipeline.skeleton

theorem shape_eq_of_skeleton_eq (h : g'.skeleton = g.skeleton) : g'.shape = g.shape := by
  have hshape := congrArg disablePipeline h
  exact hshape

/-- The second graph is the first one with a control path. -/
structure Stands (block : BlockId) (entrySlot : Nat) (g g' : Graph) : Prop
    extends OfBlock block entrySlot g' where
  shape : g'.shape = g.shape
  own : g'.OwnInterval block
  path : ∃ lowest, DataPath.HasControlPath lowest g'

theorem stands_of_scheduleStraight (h : scheduleStraight options now = .ok result last)
    (hg : now.state.OfBlock block entrySlot) (hexit : now.state.HasExit)
    (hstraight : now.state.isPipelined = false) (hown : now.state.OwnInterval block) :
    Stands block entrySlot now.state last.state := by
  have hsetup := setup_of_scheduleStraight hg hexit h
  have hstart := startsStraight_of_scheduleStraight hg hexit hstraight h
  exact ⟨hstart.ofBlock, shape_eq_of_skeleton_eq (congrArg Prod.fst hsetup),
    hown.of_setup_eq hsetup, entrySlot, hstart.path⟩

theorem stands_of_schedulePipelined (h : schedulePipelined options now = .ok result last)
    (hg : now.state.OfBlock block entrySlot) (hexit : now.state.HasExit)
    (hown : now.state.OwnInterval block) :
    Stands block entrySlot now.state last.state := by
  obtain ⟨noted, hnoted, ⟨_, hrun⟩ | ⟨_, _, _, failed, hrun, given, hgiven, hstraight⟩⟩ :=
    schedulePipelined_cases h
  all_goals rw [← hnoted] at hg hexit hown ⊢
  · have hstart := startsPipelined_of_run hg hrun
    have hskeleton := PipelineSearch.keeps_run.of_eq_ok hrun
    exact ⟨hstart.ofBlock, shape_eq_of_skeleton_eq hskeleton,
      PipelineSearch.maintains_run.of_eq_ok hown hrun, entrySlot, hstart.path⟩
  · -- A search that failed has kept the skeleton, and may have recorded an interval.
    have hskeleton := PipelineSearch.keeps_run.of_eq_error hrun
    have hown' := PipelineSearch.maintains_run.of_eq_error hown hrun
    have hexit' : failed.state.HasExit := hexit.of_skeleton_eq hskeleton
    have hshape := shape_eq_of_skeleton_eq hskeleton
    have hstands := stands_of_scheduleStraight hstraight
      (hgiven ▸ (hg.of_skeleton_eq hskeleton).disablePipeline) (hgiven ▸ hexit') (hgiven ▸ rfl)
      (hgiven ▸ ⟨hown'.entryBlock, hown'.entries⟩)
    rw [hgiven] at hstands
    exact ⟨hstands.toOfBlock, hstands.shape.trans hshape, hstands.own, hstands.path⟩

/-- The data path is placed around a control path. -/
theorem exists_stands (hg : now.state.OfBlock block entrySlot) (hexit : now.state.HasExit)
    (hown : now.state.OwnInterval block) (h : schedule options now = .ok result last) :
    ∃ middle : Journaled Graph, Stands block entrySlot now.state middle.state ∧
      DataPath.schedule options middle = .ok result last := by
  obtain ⟨_, placed, hcontrol, hdata⟩ := schedule_eq_ok_iff.mp h
  obtain ⟨middle, hsame, _, hrun⟩ := exists_dataPath hdata
  refine ⟨middle, ?_, hrun⟩
  rw [hsame]
  split at hcontrol
  next => exact stands_of_schedulePipelined hcontrol hg hexit hown
  next hpipelined =>
    exact stands_of_scheduleStraight hcontrol hg hexit (Bool.eq_false_iff.mpr hpipelined) hown

/-- The second graph is the first one with a schedule. -/
structure Scheduled (block : BlockId) (entrySlot : Nat) (g g' : Graph) : Prop
    extends OfBlock block entrySlot g' where
  shape : g'.shape = g.shape
  own : g'.OwnInterval block
  placed : ∀ {id}, id < g'.units.size → ∃ slot, g'.slot? id = some slot ∧ slot < Word.count
  classes : ∀ {id}, g'.IsData id → (g'.class? id).isSome

theorem Scheduled.holders_eq (h : Scheduled block entrySlot g g') : g'.holders = g.holders := by
  have hholders := congrArg Graph.holders h.shape
  exact hholders

theorem Scheduled.getElem?_body (h : Scheduled block entrySlot g g') (id : UnitId) :
    g'.units[id]?.map ScheduleUnit.body = g.units[id]?.map ScheduleUnit.body := by
  have hbody : g'.disablePipeline.body = g.disablePipeline.body := body_eq_of_skeleton_eq h.shape
  exact getElem?_of_body_eq hbody id

theorem scheduled_of_schedule (hg : now.state.OfBlock block entrySlot)
    (hexit : now.state.HasExit) (hown : now.state.OwnInterval block)
    (h : schedule options now = .ok result last) :
    Scheduled block entrySlot now.state last.state := by
  obtain ⟨middle, hstands, hdata⟩ := exists_stands hg hexit hown h
  obtain ⟨lowest, hpath⟩ := hstands.path
  have harranged := DataPath.schedule_arranged hstands.toWellFormed hpath
    (DataPath.braced_of_ofBlock hstands.toOfBlock) hdata
  have hskeleton := skeleton_eq_of_frame_eq harranged.frame
  have hisData : ∀ {id}, last.state.IsData id → middle.state.IsData id :=
    (isData_iff_of_frame_eq harranged.frame).mp
  refine ⟨hstands.toOfBlock.of_frame_eq harranged.frame,
    (shape_eq_of_skeleton_eq hskeleton).trans hstands.shape,
    hstands.own.of_setup_eq (setup_eq_of_frame_eq harranged.frame), fun {id} hid => ?_,
    fun hid => ?_⟩
  · rcases isControl_or_isData hid with hcontrol | hdata
    · have hcontrol := (isControl_iff_of_frame_eq harranged.frame).mp hcontrol
      obtain ⟨slot, hslot, _, hword⟩ := hpath id hcontrol
      exact ⟨slot, (harranged.control hcontrol).trans hslot, hword⟩
    · exact harranged.placed (hisData hdata)
  · exact (DataPath.schedule_classes hstands.toListed hdata).2.2 (hisData hid)

/-- The graph of a block that was lowered and scheduled on its own. -/
structure Alone (program : Program) (basic : BasicBlock) (entrySlot : Nat) (g : Graph) : Prop
    extends OfBlock basic.id entrySlot g where
  exit : g.HasExit
  held : g.Held
  own : g.OwnInterval basic.id
  rootLead : g.Leads (.entry basic.id) g.entryRoot
  exitLead : ∀ {id}, g.exitRoot = some id → g.Leads (.exit basic.id) id
  unfused : ∀ {id : UnitId} {unit : ScheduleUnit}, g.units[id]? = some unit → unit.fused = []
  parts : ∀ {id : UnitId} {unit : ScheduleUnit}, g.exitRoot ≠ some id →
    g.units[id]? = some unit → unit.PartOf program basic
  holder : ∀ {op}, op ∈ basic.ops → ∃ id, g.holder? (.op op) = some id
  ends : ∀ {id}, g.terminator? basic.id = some id → id ≠ g.entryRoot ∧ g.IsControl id
  placed : ∀ {id}, id < g.units.size → ∃ slot, g.slot? id = some slot ∧ slot < Word.count
  classes : ∀ {id}, g.IsData id → (g.class? id).isSome
  honoured : ∀ {op id}, op ∈ basic.ops → g.holder? (.op op) = some id →
    ∀ dependence, Lowering.Honoured program g op id dependence g
  entries : ∀ {block id}, (.entry block, id) ∈ g.holders.entries →
    block = basic.id ∧ id = g.entryRoot
  terminators : ∀ {block id}, (block, id) ∈ g.terminators.entries →
    block = basic.id ∧ g.terminator? basic.id = some id
  first : g.slot? g.entryRoot = some g.entrySlot
  later : ∀ {id slot}, g.slot? id = some slot → g.entrySlot ≤ slot

end Graph

/-! ## Lowered and scheduled -/

section

variable {program : Program} {basic : BasicBlock} {unit unit' : ScheduleUnit}

theorem ScheduleUnit.PartOf.of_body_eq (h : unit.PartOf program basic)
    (hbody : unit'.body = unit.body) : unit'.PartOf program basic := by
  have hpart : unit'.body.PartOf program basic := by
    rw [hbody]
    exact ⟨h.block, h.fused, h.lead, h.moves⟩
  exact ⟨hpart.block, hpart.fused, hpart.lead, hpart.moves⟩

end

namespace Graph

variable {program : Program} {basic : BasicBlock} {entrySlot : Nat} {low built g : Graph}

/-- All units of a block that was lowered on its own are parts of it. -/
theorem partOf_of_lowers (h : Lowering.Lowers program basic (Graph.start basic.id entrySlot) low)
    {id : UnitId} {unit : ScheduleUnit} (hunit : low.units[id]? = some unit) :
    unit.PartOf program basic := by
  by_cases hid : id < (Graph.start basic.id entrySlot).units.size
  · obtain ⟨entry, hentry, hbare⟩ := h.agrees.exists_unit hid hunit
    rw [getElem?_start] at hentry
    split at hentry
    · cases hentry
      exact ScheduleUnit.PartOf.of_bare_eq ⟨rfl, rfl, Or.inl rfl, fun _ => rfl⟩ hbare
    · cases hentry
  · exact (h.fresh (Nat.not_lt.mp hid) hunit).toPartOf

section

variable (hcloses : Closes basic.id low built) (hscheduled : Scheduled basic.id entrySlot built g)

include hcloses hscheduled

/-- The units of a lowered block have their bodies in the end. -/
theorem Closes.getElem?_scheduled {id : UnitId} (hid : id < low.units.size) :
    g.units[id]?.map ScheduleUnit.body = low.units[id]?.map ScheduleUnit.body := by
  have hold := congrArg (Option.map ScheduleUnit.frame) (hcloses.agrees.units hid)
  simp only [Option.map_map] at hold
  exact (hscheduled.getElem?_body id).trans hold

theorem Closes.leads_scheduled {instr : Instr} {id : UnitId} (hid : id < low.units.size) :
    g.Leads instr id ↔ low.Leads instr id :=
  exists_iff_of_map_eq (hcloses.getElem?_scheduled hscheduled hid) fun _ => Iff.rfl

theorem Closes.bundle?_scheduled {id : UnitId} (hid : id < low.units.size) :
    g.bundle? id = low.bundle? id := by
  have hexit : built.disablePipeline.exitRoot ≠ some id := by
    have hroot : built.disablePipeline.exitRoot = some low.units.size := hcloses.exitRoot
    rw [hroot]
    exact fun heq => Nat.ne_of_gt hid (Option.some.inj heq)
  have hbundles := bundle?_of_skeleton_eq hscheduled.shape hexit
  exact hbundles.trans (hcloses.agrees.edges hid)

theorem Closes.exit_scheduled : g.units[low.units.size]?.map ScheduleUnit.body =
    some { id := low.units.size, lead := .exit basic.id, block := basic.id, control := true } := by
  have hexit := congrArg (Option.map ScheduleUnit.frame) hcloses.exit
  simp only [Option.map_map] at hexit
  exact (hscheduled.getElem?_body low.units.size).trans hexit

theorem Closes.leads_op_scheduled {op : OpId} {id : UnitId} :
    g.Leads (.op op) id ↔ low.Leads (.op op) id := by
  rw [← hcloses.leads_op_iff]
  exact exists_iff_of_map_eq (hscheduled.getElem?_body id) fun _ => Iff.rfl

theorem Closes.exitRoot_scheduled : g.exitRoot = some low.units.size :=
  (congrArg Graph.exitRoot hscheduled.shape).trans hcloses.exitRoot

theorem Closes.terminator?_scheduled : g.terminator? basic.id = low.terminator? basic.id := by
  have hends := congrArg (Graph.terminator? · basic.id) hscheduled.shape
  have hends' := congrArg (fun rest => Table.get? rest.2.2.2.1 basic.id) hcloses.surroundings
  exact hends.trans hends'

theorem Closes.holder?_op_scheduled (op : OpId) : g.holder? (.op op) = low.holder? (.op op) := by
  rw [← hcloses.holder?_op, Graph.holder?, hscheduled.holders_eq, Graph.holder?]

/-- All units but the exit were there before the block was closed. -/
theorem Closes.lt_of_ne_exit {id : UnitId} {unit : ScheduleUnit} (hunit : g.units[id]? = some unit)
    (hne : g.exitRoot ≠ some id) : id < low.units.size := by
  have hlt := lt_size_of_getElem? hunit
  have hsize : g.units.size = low.units.size + 1 :=
    (size_eq_of_skeleton_eq hscheduled.shape).trans hcloses.size
  rw [hsize] at hlt
  rw [hcloses.exitRoot_scheduled hscheduled] at hne
  exact Nat.lt_of_le_of_ne (Nat.le_of_lt_succ hlt) fun heq => hne (congrArg some heq.symm)

theorem Closes.held_scheduled (hheld : low.Held) : g.Held := by
  refine hheld.of_leads_iff (fun {op id} hid => ?_) (hcloses.leads_op_scheduled hscheduled)
  rw [hscheduled.holders_eq, hcloses.holders, Table.mem_entries_insert] at hid
  exact (hid.resolve_left (by simp)).1

section

variable (hlowers : Lowering.Lowers program basic (Graph.start basic.id entrySlot) low)

include hlowers

theorem Closes.partOf_scheduled {id : UnitId} {unit : ScheduleUnit} (hne : g.exitRoot ≠ some id)
    (hunit : g.units[id]? = some unit) : unit.PartOf program basic := by
  have hbody := hcloses.getElem?_scheduled hscheduled
    (hcloses.lt_of_ne_exit hscheduled hunit hne)
  rw [hunit, Option.map_some] at hbody
  obtain ⟨unit', hunit', hbody⟩ := Option.map_eq_some_iff.mp hbody.symm
  exact (partOf_of_lowers hlowers hunit').of_body_eq hbody.symm

theorem Closes.rootLead_scheduled : g.Leads (.entry basic.id) g.entryRoot := by
  have hentry : g.entryRoot < (Graph.start basic.id entrySlot).units.size := by
    rw [size_start]
    exact Nat.one_pos
  rw [hcloses.leads_scheduled hscheduled (Nat.lt_of_lt_of_le hentry hlowers.size),
    hlowers.agrees.leads_iff hentry]
  exact leads_start.mpr ⟨rfl, rfl⟩

theorem Closes.ends_scheduled {id : UnitId} (hend : g.terminator? basic.id = some id) :
    id ≠ g.entryRoot ∧ g.IsControl id := by
  rw [hcloses.terminator?_scheduled hscheduled] at hend
  rcases hlowers.ends hend with hnone | ⟨_, hle, hcontrol⟩
  · cases hnone
  · rw [size_start] at hle
    refine ⟨Nat.ne_of_gt hle, ?_⟩
    exact (exists_iff_of_map_eq (hcloses.getElem?_scheduled hscheduled hcontrol.lt_size)
      fun _ => Iff.rfl).mpr hcontrol

theorem Closes.honoured_scheduled {op : OpId} {id : UnitId} (hop : op ∈ basic.ops)
    (hid : g.holder? (.op op) = some id) (dependence : Dependence) :
    Lowering.Honoured program g op id dependence g := by
  intro dependences s source hall hmem hs hzero hsource hhidden
  rw [hcloses.holder?_op_scheduled hscheduled] at hid hsource
  have hlt := (hlowers.held.holder hid).leads.lt_size
  have hhonours := hlowers.honoured hop hid dependence hall hmem hs hzero hsource hhidden
  exact hhonours.of_bundle?_eq (hcloses.bundle?_scheduled hscheduled hlt)

theorem alone_of_scheduled (hexit : built.HasExit)
    (hentries : ∀ {block id}, (.entry block, id) ∈ built.holders.entries →
      block = basic.id ∧ id = built.entryRoot)
    (hterminators : ∀ {block id}, (block, id) ∈ built.terminators.entries →
      block = basic.id ∧ built.terminator? basic.id = some id)
    (hfirst : g.slot? g.entryRoot = some entrySlot)
    (hlater : ∀ {id slot}, g.slot? id = some slot → entrySlot ≤ slot) :
    Alone program basic entrySlot g where
  toOfBlock := hscheduled.toOfBlock
  exit := by
    have hexit' : g.disablePipeline.HasExit :=
      HasExit.of_skeleton_eq (g := built.disablePipeline) hexit hscheduled.shape
    exact hexit'
  held := hcloses.held_scheduled hscheduled hlowers.held
  own := hscheduled.own
  rootLead := hcloses.rootLead_scheduled hscheduled hlowers
  exitLead := by
    intro id hid
    obtain rfl := Option.some.inj ((hcloses.exitRoot_scheduled hscheduled).symm.trans hid)
    obtain ⟨unit, hunit, hbody⟩ := Option.map_eq_some_iff.mp (hcloses.exit_scheduled hscheduled)
    exact ⟨unit, hunit, congrArg ScheduleUnit.lead hbody⟩
  unfused := by
    intro id unit hunit
    by_cases hid : g.exitRoot = some id
    · obtain rfl := Option.some.inj ((hcloses.exitRoot_scheduled hscheduled).symm.trans hid)
      obtain ⟨unit', hunit', hbody⟩ := Option.map_eq_some_iff.mp (hcloses.exit_scheduled hscheduled)
      obtain rfl := Option.some.inj (hunit.symm.trans hunit')
      exact congrArg ScheduleUnit.fused hbody
    · exact (hcloses.partOf_scheduled hscheduled hlowers hid hunit).fused
  parts := hcloses.partOf_scheduled hscheduled hlowers
  holder := by
    intro op hop
    obtain ⟨id, _, hid⟩ := hlowers.holder hop
    exact ⟨id, (hcloses.holder?_op_scheduled hscheduled op).trans hid⟩
  ends := hcloses.ends_scheduled hscheduled hlowers
  placed := hscheduled.placed
  classes := hscheduled.classes
  honoured := fun hop hid dependence =>
    hcloses.honoured_scheduled hscheduled hlowers hop hid dependence
  entries := fun hid => hentries (hscheduled.holders_eq ▸ hid)
  terminators := by
    have hsame : g.terminators = built.terminators := by
      have hsame := congrArg Graph.terminators hscheduled.shape
      exact hsame
    intro block id hid
    rw [terminator?, hsame]
    exact hterminators (hsame ▸ hid)
  first := by
    rw [hscheduled.entrySlot]
    exact hfirst
  later := by
    rw [hscheduled.entrySlot]
    exact hlater

end

end

/-- A block on its own is entered at the entry slot, and no unit issues before. -/
theorem slots_of_eq_ok {σ : Type} {options : SchedulingOptions} {now last : Journaled σ}
    (h : (do
      let g ← Lowering.buildBlock program basic entrySlot
      scheduleApart options g : Step σ Graph) now = .ok g last) :
    g.slot? g.entryRoot = some entrySlot ∧
      ∀ {id slot}, g.slot? id = some slot → entrySlot ≤ slot := by
  have hends : ∀ {start : Graph}, start.IsControl start.entryRoot →
      start.slot? start.entryRoot = some entrySlot → DataPath.HasControlPath entrySlot start →
      DataPath.Finished entrySlot start g → g.slot? g.entryRoot = some entrySlot ∧
        ∀ {id slot}, g.slot? id = some slot → entrySlot ≤ slot := by
    intro start hroot hentry hpath hfinished
    refine ⟨(hfinished.control hroot).trans hentry, fun {id slot} hslot => ?_⟩
    obtain ⟨unit, hunit, _⟩ : ∃ unit, g.units[id]? = some unit ∧ unit.slot = some slot :=
      Option.bind_eq_some_iff.mp hslot
    rcases isControl_or_isData (lt_size_of_getElem? hunit) with hcontrol | hdata
    · have hcontrol := (isControl_iff_of_frame_eq hfinished.frame).mp hcontrol
      obtain ⟨slot', hslot', hle, _⟩ := hpath id hcontrol
      rw [hfinished.control hcontrol, hslot', Option.some_inj] at hslot
      exact hslot ▸ hle
    · obtain ⟨slot', hslot', hle⟩ :=
        hfinished.placed ((isData_iff_of_frame_eq hfinished.frame).mp hdata)
      obtain rfl := Option.some.inj (hslot.symm.trans hslot')
      exact hle
  rcases exists_start h with ⟨start, hstart, hfinished⟩ | ⟨_, start, hstart, hentry, hfinished⟩
  · exact hends hstart.ofBlock.root hstart.entry hstart.path hfinished
  · exact hends hstart.ofBlock.root hentry hstart.path hfinished

/-- A block on its own is lowered and then scheduled. -/
theorem scheduled_of_eq_ok {σ : Type} {options : SchedulingOptions} {now last : Journaled σ}
    (h : (do
      let g ← Lowering.buildBlock program basic entrySlot
      scheduleApart options g : Step σ Graph) now = .ok g last) :
    ∃ built now', Lowering.buildBlock program basic entrySlot now = .ok built now' ∧
      Scheduled basic.id entrySlot built g := by
  obtain ⟨built, now', hbuild, h⟩ := Step.bind_eq_ok.mp h
  obtain ⟨hg, hexit⟩ := Lowering.ofBlock_buildBlock hbuild
  have hown : built.OwnInterval basic.id := by
    refine ⟨hg.entryBlock, Or.inl ?_⟩
    rw [Lowering.intervals_buildBlock hbuild]
  obtain ⟨⟨result, scheduled⟩, hrun, rfl⟩ := Step.map_eq_ok.mp h
  obtain ⟨finished, hschedule, rfl, _⟩ := Step.apart_eq_ok.mp hrun
  exact ⟨built, now', hbuild, scheduled_of_schedule hg hexit hown hschedule⟩

/-- Lowering a block and scheduling it on its own yields such a graph. -/
theorem alone_of_eq_ok {σ : Type} {options : SchedulingOptions} {now last : Journaled σ}
    (h : (do
      let g ← Lowering.buildBlock program basic entrySlot
      scheduleApart options g : Step σ Graph) now = .ok g last) :
    Alone program basic entrySlot g := by
  obtain ⟨hfirst, hlater⟩ := slots_of_eq_ok h
  obtain ⟨built, now', hbuild, hscheduled⟩ := scheduled_of_eq_ok h
  obtain ⟨_, hexit⟩ := Lowering.ofBlock_buildBlock hbuild
  obtain ⟨low, hlowers, hcloses⟩ := Lowering.buildBlock_eq_ok hbuild
  obtain ⟨hentries, hterminators⟩ := Lowering.tables_buildBlock hbuild
  exact alone_of_scheduled hcloses hscheduled hlowers hexit hentries hterminators hfirst hlater

end Graph

end SlotScheduling
