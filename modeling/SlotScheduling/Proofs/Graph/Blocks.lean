import SlotScheduling.Graph.Lowering
import SlotScheduling.Proofs.Graph.WellFormed
import SlotScheduling.Proofs.Steps

/-!
# Graphs of single blocks

Lowering a single block yields a well-formed graph in which every unit and every
dependency lies within the block and nothing is frozen.
-/

namespace SlotScheduling

/-- The unit and its dependencies lie within the block, and are not frozen. -/
structure ScheduleUnit.InBlock (block : BlockId) (unit : ScheduleUnit) : Prop where
  block : unit.block = block
  unfrozen : unit.fixedTiming = false
  within : ∀ dep ∈ unit.deps.entries, dep.2.crossBlock = false

theorem ScheduleUnit.InBlock.of_outline_eq {block : BlockId} {unit unit' : ScheduleUnit}
    (hunit : unit'.InBlock block) (h : unit.outline = unit'.outline) : unit.InBlock block where
  block := by
    have hblock := congrArg ScheduleUnit.block h
    exact hblock.trans hunit.block
  unfrozen := by
    have hfixed := congrArg ScheduleUnit.fixedTiming h
    exact hfixed.trans hunit.unfrozen
  within := by
    intro dep hdep
    have hmem : (dep.1, dep.2.withLatency 0) ∈
        unit'.deps.entries.map fun dep => (dep.1, dep.2.withLatency 0) :=
      deps_of_outline_eq h ▸ List.mem_map_of_mem hdep
    obtain ⟨dep', hdep', heq⟩ := List.mem_map.mp hmem
    have hcross := congrArg (fun dep : UnitId × EdgeBundle => dep.2.crossBlock) heq
    exact hcross.symm.trans (hunit.within dep' hdep')

namespace Graph

/-- The graph is the one of a single block. -/
structure OfBlock (block : BlockId) (entrySlot : Nat) (g : Graph) : Prop extends WellFormed g where
  units : ∀ {id : UnitId} {unit : ScheduleUnit}, g.units[id]? = some unit → unit.InBlock block
  entryBlock : g.entryBlock = block
  entrySlot : g.entrySlot = entrySlot
  entry : g.holder? (.entry block) = some g.entryRoot
  root : g.IsControl g.entryRoot
  loop : ∀ {id}, g.loopOp = some id → g.IsControl id

/-- The exit is a control unit of its own. -/
def HasExit (g : Graph) : Prop :=
  ∃ exit, g.exitRoot = some exit ∧ g.IsControl exit ∧ exit ≠ g.entryRoot

variable {g g' : Graph} {id : UnitId} {block : BlockId} {entrySlot : Nat}

theorem HasExit.of_skeleton_eq (hg : g.HasExit) (h : g'.skeleton = g.skeleton) : g'.HasExit := by
  obtain ⟨exit, hexit, hcontrol, hne⟩ := hg
  have hroot : g'.exitRoot = g.exitRoot := Graph.eq_of_skeleton_eq (·.exitRoot) h fun _ => rfl
  have houtline := outline_eq_of_skeleton_eq h
  exact ⟨exit, hroot.trans hexit, isControl_of_outline_eq houtline.symm hcontrol, hne⟩

theorem OfBlock.of_outline_eq (hg : g.OfBlock block entrySlot) (h : g'.outline = g.outline)
    (hloop : ∀ {id}, g'.loopOp = some id → g'.IsControl id) : g'.OfBlock block entrySlot where
  toWellFormed := hg.toWellFormed.of_outline_eq h
  units := by
    intro id unit hunit
    obtain ⟨unit', hunit', heq⟩ := exists_of_outline_eq h hunit
    exact (hg.units hunit').of_outline_eq heq
  entryBlock := by
    have hentry := congrArg Graph.entryBlock h
    exact hentry.trans hg.entryBlock
  entrySlot := by
    have hslot := congrArg Graph.entrySlot h
    exact hslot.trans hg.entrySlot
  entry := by
    have hholders := congrArg (fun g => Table.get? (Graph.holders g) (.entry block)) h
    exact hholders.trans hg.entry
  root := isControl_of_outline_eq h.symm hg.root
  loop := hloop

theorem OfBlock.of_skeleton_eq (hg : g.OfBlock block entrySlot) (h : g'.skeleton = g.skeleton) :
    g'.OfBlock block entrySlot := by
  have houtline := outline_eq_of_skeleton_eq h
  have hloopOp : g'.loopOp = g.loopOp := eq_of_skeleton_eq (·.loopOp) h fun _ => rfl
  refine hg.of_outline_eq houtline fun hloop => ?_
  exact isControl_of_outline_eq houtline.symm (hg.loop (hloopOp ▸ hloop))

theorem OfBlock.of_frame_eq (hg : g.OfBlock block entrySlot) (h : g'.frame = g.frame) :
    g'.OfBlock block entrySlot :=
  hg.of_skeleton_eq (skeleton_eq_of_frame_eq h)

theorem OfBlock.disablePipeline (hg : g.OfBlock block entrySlot) :
    g.disablePipeline.OfBlock block entrySlot :=
  { hg with loop := fun h => by cases h }

theorem OfBlock.setInterval (hg : g.OfBlock block entrySlot) (interval : Nat) :
    (g.setInterval block interval).OfBlock block entrySlot :=
  hg.of_outline_eq rfl hg.loop

theorem OfBlock.block_eq (hg : g.OfBlock block entrySlot) {unit : ScheduleUnit}
    (hunit : g.units[id]? = some unit) : unit.block = g.entryBlock :=
  (hg.units hunit).block.trans hg.entryBlock.symm

theorem inBlock_new {id : UnitId} {lead : Instr} {funcUnit : FuncUnit} {control : Bool}
    {latency : Nat} :
    ScheduleUnit.InBlock block { id, lead, block, funcUnit, control, latency } where
  block := rfl
  unfrozen := rfl
  within := fun _ hdep => absurd hdep List.not_mem_nil

theorem OfBlock.start (block : BlockId) (entrySlot : Nat) :
    (Graph.start block entrySlot).OfBlock block entrySlot where
  toWellFormed := by
    refine WellFormed.createUnit ⟨⟨?_, ?_, ?_, List.nodup_nil, List.nodup_nil⟩, ?_⟩
    · simp
    · simp [IsControl]
    · simp [IsData]
    · simp [DependsOn, IsUsedBy]
  units := by
    intro id unit hunit
    unfold Graph.start createEntry at hunit
    rw [getElem?_createUnit] at hunit
    split at hunit
    · cases hunit
      exact inBlock_new
    · simp at hunit
  entryBlock := rfl
  entrySlot := rfl
  entry := by
    simp [Graph.start, createEntry, createUnit, holder?, Table.get?_insert, nextId, entryRoot]
  root := isControl_createUnit.mpr (Or.inl ⟨rfl, rfl⟩)
  loop := fun h => by cases h

theorem OfBlock.createUnit (hg : g.OfBlock block entrySlot) {lead : Instr} {funcUnit : FuncUnit}
    {control : Bool} {latency : Nat} (hlead : lead ≠ .entry block) :
    (g.createUnit lead block funcUnit control latency).OfBlock block entrySlot where
  toWellFormed := hg.toWellFormed.createUnit
  units := by
    intro id unit hunit
    rw [getElem?_createUnit] at hunit
    split at hunit
    · cases hunit
      exact inBlock_new
    · exact hg.units hunit
  entryBlock := hg.entryBlock
  entrySlot := hg.entrySlot
  entry := by
    simp only [Graph.createUnit, holder?, Table.get?_insert, if_neg hlead]
    exact hg.entry
  root := isControl_createUnit.mpr (Or.inr hg.root)
  loop := fun h => isControl_createUnit.mpr (Or.inr (hg.loop h))

theorem crossBlock_addEdge {old bundle : EdgeBundle} {edge : DepEdge}
    (h : old.addEdge edge = .ok bundle) : bundle.crossBlock = old.crossBlock := by
  unfold EdgeBundle.addEdge at h
  split at h
  · cases h
    rfl
  · split at h
    · cases h
    · split at h <;> (cases h; rfl)

theorem inBlock_addDep (hg : g.OfBlock block entrySlot) {target source : UnitId} {edge : DepEdge}
    (h : g.addDep target source edge = .ok g') {unit : ScheduleUnit}
    (hunit : g'.units[id]? = some unit) : unit.InBlock block := by
  obtain ⟨_, producer, consumer, hproducer, hconsumer, hcases⟩ := addDep_cases hg.toListed h
  rcases hcases with ⟨old, bundle, hold, hbundle, hchange⟩ | ⟨_, middle, hmiddle, hend⟩
  · refine forall_changeUnit hchange hg.units (fun {unit} hunit => ?_) hunit
    have hin := hg.units hunit
    obtain rfl : unit = consumer := Option.some.inj (hunit.symm.trans hconsumer)
    refine ⟨hin.block, hin.unfrozen, fun dep hdep => ?_⟩
    rcases Table.mem_entries_modify hdep with hdep | ⟨_, _, rfl⟩
    · exact hin.within dep hdep
    · rw [crossBlock_addEdge hbundle]
      exact hin.within _ (Table.mem_entries_of_get?_eq_some hold)
  · have hmiddle : ∀ {id : UnitId} {unit}, middle.units[id]? = some unit →
        unit.InBlock block := by
      intro id unit hunit
      refine forall_changeUnit hmiddle hg.units (fun {unit} hunit => ?_) hunit
      have hin := hg.units hunit
      refine ⟨hin.block, hin.unfrozen, fun dep hdep => ?_⟩
      rcases Table.mem_entries_insert.mp hdep with rfl | ⟨hdep, _⟩
      · simp [(hg.units hproducer).block, (hg.units hconsumer).block]
      · exact hin.within dep hdep
    refine forall_changeUnit hend hmiddle (fun hunit => ?_) hunit
    have hin := hmiddle hunit
    exact ⟨hin.block, hin.unfrozen, hin.within⟩

theorem OfBlock.addDep (hg : g.OfBlock block entrySlot) {target source : UnitId} {edge : DepEdge}
    (h : g.addDep target source edge = .ok g') : g'.OfBlock block entrySlot := by
  obtain ⟨units, hunits⟩ := exists_eq_of_addDep hg.toListed h
  have hcontrol : ∀ {id}, g'.IsControl id ↔ g.IsControl id := isControl_addDep hg.toListed h
  refine ⟨hg.toWellFormed.addDep h, inBlock_addDep hg h, ?_, ?_, ?_, hcontrol.mpr hg.root, ?_⟩
  · rw [hunits]
    exact hg.entryBlock
  · rw [hunits]
    exact hg.entrySlot
  · rw [hunits]
    exact hg.entry
  · intro id hloop
    rw [hunits] at hloop
    exact hcontrol.mpr (hg.loop hloop)

theorem OfBlock.changeUnit (hg : g.OfBlock block entrySlot)
    {change : ScheduleUnit → ScheduleUnit} (h : g.changeUnit id change = .ok g')
    (hchange : ∀ unit, (change unit).outline = unit.outline) :
    g'.OfBlock block entrySlot := by
  have houtline := outline_changeUnit h hchange
  refine hg.of_outline_eq houtline fun hloop => ?_
  obtain ⟨_, rfl⟩ := changeUnit_eq_ok.mp h
  exact isControl_of_outline_eq houtline.symm (hg.loop hloop)

theorem OfBlock.setTerminator (hg : g.OfBlock block entrySlot)
    (h : g.setTerminator block id = .ok g') : g'.OfBlock block entrySlot := by
  obtain ⟨middle, hmiddle, h⟩ := Checked.bind_eq_ok.mp h
  obtain rfl := Checked.pure_eq_ok.mp h
  have hmiddle := hg.changeUnit hmiddle fun _ => rfl
  exact hmiddle.of_outline_eq rfl hmiddle.loop

theorem isControl_setTerminator {other : UnitId} (h : g.setTerminator block other = .ok g') :
    g'.IsControl id ↔ g.IsControl id := by
  obtain ⟨middle, hmiddle, h⟩ := Checked.bind_eq_ok.mp h
  obtain rfl := Checked.pure_eq_ok.mp h
  have hcontrol : middle.IsControl id ↔ g.IsControl id :=
    isControl_changeUnit hmiddle fun _ => rfl
  exact hcontrol

theorem OfBlock.trySetLoopOp (hg : g.OfBlock block entrySlot) (hcontrol : g.IsControl id)
    {target : Option BlockId} {loops : Bool} (h : g.trySetLoopOp id target = .ok (loops, g')) :
    g'.OfBlock block entrySlot := by
  obtain ⟨unit, _, h⟩ := Checked.bind_eq_ok.mp h
  split at h
  · cases h
    refine hg.of_outline_eq rfl fun hloop => ?_
    cases hloop
    exact hcontrol
  · cases h
    exact hg

end Graph

namespace Lowering

open SlotScheduling.Graph

variable {program : Program} {g g' : Graph} {block : BlockId} {entrySlot : Nat}

theorem ofBlock_createOp (hg : g.OfBlock block entrySlot) {op : OpId} {loops : Bool}
    (h : createOp program block op g = .ok (g', loops)) : g'.OfBlock block entrySlot := by
  obtain ⟨operation, _, h⟩ := Checked.bind_eq_ok.mp h
  obtain ⟨changed, hchanged, h⟩ := Checked.bind_eq_ok.mp h
  have hcreated : (g.createUnit (.op op) block operation.funcUnit operation.isControl
      (program.oracle.stepsToFinish op)).OfBlock block entrySlot :=
    hg.createUnit (by simp)
  have hchangedBlock := hcreated.changeUnit hchanged fun _ => rfl
  split at h
  next hterminator =>
    obtain ⟨ended, hended, h⟩ := Checked.bind_eq_ok.mp h
    obtain ⟨⟨loops', last⟩, hlast, h⟩ := Checked.bind_eq_ok.mp h
    cases h
    have hcontrol : changed.IsControl g.nextId := by
      rw [isControl_changeUnit hchanged fun _ => rfl, isControl_createUnit]
      exact Or.inl ⟨rfl, by simp [Operation.isControl, hterminator]⟩
    rw [← isControl_setTerminator hended] at hcontrol
    exact (hchangedBlock.setTerminator hended).trySetLoopOp hcontrol hlast
  next =>
    cases h
    exact hchangedBlock

theorem ofBlock_createOps {σ : Type} (hg : g.OfBlock block entrySlot) {ops : List OpId}
    {created : List (OpId × UnitId)} {now last : Journaled σ}
    (h : createOps program block ops g now = .ok (g', created) last) :
    g'.OfBlock block entrySlot := by
  refine Step.foldlM_induction (P := fun (result : Graph × List (OpId × UnitId)) _ =>
    result.1.OfBlock block entrySlot) (fun op _ before after now last hbefore hround => ?_) hg h
  obtain ⟨⟨g₁, loops⟩, now₁, hcreate, hround⟩ := Step.bind_eq_ok.mp hround
  have hcreated := ofBlock_createOp hbefore (Step.lift_eq_ok.mp hcreate).1
  cases loops with
  | true =>
      obtain ⟨_, now₂, _, hround⟩ := Step.bind_eq_ok.mp hround
      obtain ⟨rfl, _⟩ := Step.pure_eq_ok.mp hround
      exact hcreated
  | false =>
      obtain ⟨rfl, _⟩ := Step.pure_eq_ok.mp hround
      exact hcreated

theorem ofBlock_attachOperand (hg : g.OfBlock block entrySlot) {entry id : UnitId}
    {dependence : Dependence} (h : attachOperand entry id g dependence = .ok g') :
    g'.OfBlock block entrySlot := by
  unfold attachOperand at h
  split at h <;> exact hg.addDep h

theorem ofBlock_attachOperands (hg : g.OfBlock block entrySlot) {entry : UnitId}
    {created : OpId × UnitId} (h : attachOperands program entry g created = .ok g') :
    g'.OfBlock block entrySlot := by
  unfold attachOperands at h
  split at h
  · cases h
  · exact Checked.foldlM_induction
      (fun _ _ _ _ hbefore hround => ofBlock_attachOperand hbefore hround) hg h

theorem ofBlock_anchorUnit (hg : g.OfBlock block entrySlot) {entry id : UnitId}
    {block' : BlockId} (h : anchorUnit entry block' g id = .ok g') :
    g'.OfBlock block entrySlot := by
  obtain ⟨_, _, h⟩ := Checked.bind_eq_ok.mp h
  obtain ⟨anchored, _, h⟩ := Checked.bind_eq_ok.mp h
  split at h
  · cases h
    exact hg
  · exact hg.addDep h

theorem ofBlock_attachUnits (hg : g.OfBlock block entrySlot) {entry : UnitId}
    {block' : BlockId} {created : List (OpId × UnitId)}
    (h : attachUnits program entry block' created g = .ok g') :
    g'.OfBlock block entrySlot := by
  obtain ⟨middle, hmiddle, h⟩ := Checked.bind_eq_ok.mp h
  have hattached : middle.OfBlock block entrySlot :=
    Checked.foldlM_induction
      (fun _ _ _ _ hbefore hround => ofBlock_attachOperands hbefore hround) hg hmiddle
  exact Checked.foldlM_induction
    (fun _ _ _ _ hbefore hround => ofBlock_anchorUnit hbefore hround) hattached h

/-- The block that the lowering starts with takes over the entry, and it alone. -/
theorem takesEntry_start {other : BlockId} :
    (start block entrySlot).takesEntry other = true ↔ other = block := by
  simp [takesEntry, start, Graph.start, createEntry, createUnit]

theorem enter_start (block : BlockId) (entrySlot : Nat) :
    (start block entrySlot).enter block =
      .ok (Graph.start block entrySlot, (Graph.start block entrySlot).entryRoot) := by
  rw [enter, if_pos (takesEntry_start.mpr rfl)]
  rfl

theorem ofBlock_lowerBlock {σ : Type} {basic : BasicBlock} {l : Lowering}
    {now last : Journaled σ}
    (h : lowerBlock program (start basic.id entrySlot) basic now = .ok l last) :
    l.graph.OfBlock basic.id entrySlot ∧ l.lastBlock = basic.id := by
  obtain ⟨⟨entered, entry⟩, now₁, henter, h⟩ := Step.bind_eq_ok.mp h
  obtain ⟨ops, now₂, _, h⟩ := Step.bind_eq_ok.mp h
  obtain ⟨⟨created, ids⟩, now₃, hcreate, h⟩ := Step.bind_eq_ok.mp h
  obtain ⟨attached, now₄, hattach, h⟩ := Step.bind_eq_ok.mp h
  obtain ⟨_, now₅, _, h⟩ := Step.bind_eq_ok.mp h
  obtain ⟨rfl, _⟩ := Step.pure_eq_ok.mp h
  have hentered : entered.OfBlock basic.id entrySlot := by
    have henter := (Step.lift_eq_ok.mp henter).1
    rw [enter_start] at henter
    cases henter
    exact OfBlock.start basic.id entrySlot
  have hcreated := ofBlock_createOps hentered hcreate
  exact ⟨ofBlock_attachUnits hcreated (Step.lift_eq_ok.mp hattach).1, rfl⟩

theorem ofBlock_finish {l : Lowering} (hg : l.graph.OfBlock block entrySlot)
    (hlast : l.lastBlock = block) (h : l.finish = .ok g) :
    g.OfBlock block entrySlot ∧ g.HasExit := by
  obtain ⟨sinks, _, h⟩ := Checked.bind_eq_ok.mp h
  obtain ⟨attached, hattach, h⟩ := Checked.bind_eq_ok.mp h
  obtain ⟨_, _, h⟩ := Checked.bind_eq_ok.mp h
  obtain rfl := Checked.pure_eq_ok.mp h
  have hcreated : (l.graph.createUnit (.exit block) block .trivial true 0).OfBlock block
      entrySlot := hg.createUnit (by simp)
  have hexit : (l.graph.createExit l.lastBlock).OfBlock block entrySlot ∧
      (l.graph.createExit l.lastBlock).HasExit := by
    rw [hlast]
    refine ⟨hcreated.of_outline_eq rfl hcreated.loop, l.graph.nextId, rfl, ?_, ?_⟩
    · exact isControl_createUnit.mpr (Or.inl ⟨rfl, rfl⟩)
    · obtain ⟨entry, hentry, _⟩ := hg.root
      exact Nat.ne_of_gt (lt_size_of_getElem? hentry)
  refine Checked.foldlM_induction (P := fun g => g.OfBlock block entrySlot ∧ g.HasExit)
    (fun sink _ before after hbefore hround => ?_) hexit hattach
  obtain ⟨hblock, exit, hroot, hcontrol, hne⟩ := hbefore
  obtain ⟨_, _, hround⟩ := Checked.bind_eq_ok.mp hround
  obtain ⟨units, rfl⟩ := exists_eq_of_addDep hblock.toListed hround
  exact ⟨hblock.addDep hround, exit, hroot,
    (isControl_addDep hblock.toListed hround).mpr hcontrol, hne⟩

/-- What a single block is lowered to is the graph of that block. -/
theorem ofBlock_buildBlock {σ : Type} {basic : BasicBlock} {now last : Journaled σ}
    (h : buildBlock program basic entrySlot now = .ok g last) :
    g.OfBlock basic.id entrySlot ∧ g.HasExit := by
  obtain ⟨l, now₁, hlower, h⟩ := Step.bind_eq_ok.mp h
  obtain ⟨hblock, hlast⟩ := ofBlock_lowerBlock hlower
  exact ofBlock_finish hblock hlast (Step.lift_eq_ok.mp h).1

end Lowering

end SlotScheduling
