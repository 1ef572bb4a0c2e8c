import SlotScheduling.Graph.Lowering
import SlotScheduling.Proofs.Graph.Growth
import SlotScheduling.Proofs.Steps

/-!
# Created units

Lowering a block makes one unit for each of its operations, behind the units that
are there, and one for its entry unless the block takes over the entry of the graph.
The units have no dependencies yet but for the one that chains the blocks.
-/

namespace SlotScheduling

/-! ## Empty graphs -/

namespace Graph

variable {block : BlockId} {entrySlot : Nat} {id : UnitId}

theorem getElem?_start : (Graph.start block entrySlot).units[id]? =
    if id = 0 then some { id := 0, lead := .entry block, block, control := true } else none := by
  simp [Graph.start, createEntry, getElem?_createUnit, FuncUnit.trivial]

theorem size_start (block : BlockId) (entrySlot : Nat) :
    (Graph.start block entrySlot).units.size = 1 := by
  simp [Graph.start, createEntry, createUnit]

theorem leads_start {instr : Instr} :
    (Graph.start block entrySlot).Leads instr id ↔ id = 0 ∧ instr = .entry block := by
  rw [Leads, getElem?_start]
  split
  next hid => simp [hid, eq_comm]
  next hid => simp [hid]

theorem held_start (block : BlockId) (entrySlot : Nat) : (Graph.start block entrySlot).Held := by
  refine ⟨fun {op id} hid => ?_⟩
  simp [Graph.start, createEntry, createUnit, Table.insert, Table.erase] at hid

end Graph

/-! ## New units -/

theorem Operation.isControl_of_phi (operation : Operation) (h : operation.phi = true) :
    operation.isControl = true := by
  simp [isControl, h]

/-- The unit has what the operation for which it was made asks for. -/
def ScheduleUnit.Serves (unit : ScheduleUnit) (operation : Operation) : Prop :=
  unit.funcUnit = operation.funcUnit ∧ unit.control = operation.isControl ∧
    unit.phi = operation.phi

/-- The unit stands for the entry of a block or for one of its operations. -/
structure ScheduleUnit.PartOf (program : Program) (basic : BasicBlock) (unit : ScheduleUnit) :
    Prop where
  block : unit.block = basic.id
  fused : unit.fused = []
  lead : unit.lead = .entry basic.id ∨ ∃ op ∈ basic.ops, unit.lead = .op op ∧
    ∃ operation, program.ops.operation op = .ok operation ∧ unit.Serves operation
  moves : unit.phi = true → unit.control = true

/-- A part of a block that was made when the block was lowered. -/
structure ScheduleUnit.Fresh (program : Program) (basic : BasicBlock) (unit : ScheduleUnit) :
    Prop extends PartOf program basic unit where
  slot : unit.slot = none
  unfrozen : unit.fixedTiming = false

section

variable {program : Program} {basic : BasicBlock} {unit unit' : ScheduleUnit}

theorem ScheduleUnit.PartOf.of_bare_eq (h : unit.PartOf program basic)
    (hbare : unit'.bare = unit.bare) : unit'.PartOf program basic := by
  have hpart : unit'.bare.PartOf program basic := by
    rw [hbare]
    exact ⟨h.block, h.fused, h.lead, h.moves⟩
  exact ⟨hpart.block, hpart.fused, hpart.lead, hpart.moves⟩

theorem ScheduleUnit.Fresh.of_bare_eq (h : unit.Fresh program basic)
    (hbare : unit'.bare = unit.bare) : unit'.Fresh program basic := by
  have hfresh : unit'.bare.Fresh program basic := by
    rw [hbare]
    exact ⟨⟨h.block, h.fused, h.lead, h.moves⟩, h.slot, h.unfrozen⟩
  exact ⟨h.toPartOf.of_bare_eq hbare, hfresh.slot, hfresh.unfrozen⟩

end

namespace Graph

/-- What lowering a block leaves alone beside the units. -/
def setting (g : Graph) : BlockId × Nat × Table BlockId Nat × Option UnitId :=
  (g.entryBlock, g.entrySlot, g.intervals, g.exitRoot)

theorem rest_changeUnit {g g' : Graph} {id : UnitId} {change : ScheduleUnit → ScheduleUnit}
    (h : g.changeUnit id change = .ok g') : g'.units.size = g.units.size ∧
      g'.setting = g.setting ∧ g'.holders = g.holders ∧ g'.loopOp = g.loopOp ∧
        g'.terminators = g.terminators := by
  obtain ⟨_, rfl⟩ := changeUnit_eq_ok.mp h
  exact ⟨by simp, rfl, rfl, rfl, rfl⟩

/-- The second graph is the first one with units added for a block. -/
structure Extended (program : Program) (basic : BasicBlock) (g g' : Graph) : Prop
    extends WellFormed g' where
  agrees : AgreesBelow g.units.size g g'
  size : g.units.size ≤ g'.units.size
  setting : g'.setting = g.setting
  held : g'.Held
  fresh : ∀ {id : UnitId} {unit : ScheduleUnit}, g.units.size ≤ id →
    g'.units[id]? = some unit → unit.Fresh program basic
  others : ∀ {op}, op ∉ basic.ops → g'.holder? (.op op) = g.holder? (.op op)

theorem Extended.refl {program : Program} {basic : BasicBlock} {g : Graph} (hg : g.WellFormed)
    (hheld : g.Held) : Extended program basic g g where
  toWellFormed := hg
  agrees := AgreesBelow.refl _ g
  size := Nat.le_refl _
  setting := rfl
  held := hheld
  fresh := by
    intro id unit hid hunit
    exact absurd (lt_size_of_getElem? hunit) (Nat.not_lt.mpr hid)
  others := fun _ => rfl

theorem Extended.addDep {program : Program} {basic : BasicBlock} {start g g' : Graph}
    {target source : UnitId} {edge : DepEdge} (hg : Extended program basic start g)
    (htarget : start.units.size ≤ target) (h : g.addDep target source edge = .ok g') :
    Extended program basic start g' where
  toWellFormed := hg.toWellFormed.addDep h
  agrees := hg.agrees.trans (agreesBelow_addDep hg.toListed h htarget)
  size := by
    rw [size_eq_of_bare_eq (bare_addDep h)]
    exact hg.size
  setting := by
    obtain ⟨units, rfl⟩ := exists_eq_of_addDep hg.toListed h
    exact hg.setting
  held := hg.held.of_bare_eq (bare_addDep h)
  fresh := by
    intro id unit hid hunit
    obtain ⟨unit', hunit', hbare⟩ := exists_of_bare_eq (bare_addDep h) hunit
    exact (hg.fresh hid hunit').of_bare_eq hbare
  others := by
    intro op hop
    rw [holder?_of_bare_eq (bare_addDep h)]
    exact hg.others hop

end Graph

namespace Lowering

open SlotScheduling.Graph

variable {program : Program} {basic : BasicBlock} {block : BlockId} {g g' start : Graph}
  {op : OpId} {created : List (OpId × UnitId)}

/-- Units are made for the operations that end no block, and then for those that do. -/
theorem exists_ends_of_unitOrder {ops : List OpId} (h : unitOrder program basic = .ok ops) :
    ∃ ends : List (OpId × Bool), ends.map Prod.fst = basic.ops ∧
      ops = (ends.filter (!·.2) ++ ends.filter (·.2)).map Prod.fst ∧
      ∀ pair ∈ ends, ∃ operation, program.ops.operation pair.1 = .ok operation ∧
        operation.terminator = pair.2 := by
  obtain ⟨ends, hends, h⟩ := Checked.bind_eq_ok.mp h
  refine ⟨ends, ?_, Checked.pure_eq_ok.mp h, ?_⟩
  all_goals
    have hall := Checked.mapM_eq_ok hends
    clear h hends
    generalize basic.ops = listed at hall
    induction hall with
    | nil => simp
    | cons hfirst _ ih =>
        obtain ⟨operation, hoperation, hfirst⟩ := Checked.bind_eq_ok.mp hfirst
        obtain rfl := Checked.pure_eq_ok.mp hfirst
        simpa [hoperation] using ih

theorem perm_unitOrder {ops : List OpId} (h : unitOrder program basic = .ok ops) :
    ops.Perm basic.ops := by
  obtain ⟨ends, hops, rfl, _⟩ := exists_ends_of_unitOrder h
  rw [← hops]
  refine List.Perm.map _ (List.perm_append_comm.trans ?_)
  exact List.filter_append_perm (·.2) ends

theorem mem_unitOrder {ops : List OpId} (h : unitOrder program basic = .ok ops) :
    op ∈ ops ↔ op ∈ basic.ops :=
  (perm_unitOrder h).mem_iff

/-- Some operation ends the block and branches back to the entry block of the graph. -/
def LoopsBack (program : Program) (basic : BasicBlock) (g : Graph) : Prop :=
  basic.id = g.entryBlock ∧ ∃ op ∈ basic.ops, ∃ operation,
    program.ops.operation op = .ok operation ∧ operation.terminator = true ∧
      operation.branchTarget = some g.entryBlock

/-- The unit that is made for an operation. -/
def unitOf (program : Program) (block : BlockId) (op : OpId) (operation : Operation)
    (id : UnitId) : ScheduleUnit where
  id := id
  lead := .op op
  block := block
  funcUnit := operation.funcUnit
  control := operation.isControl
  latency := program.oracle.stepsToFinish op
  terminator := operation.terminator
  phi := operation.phi
  writeUntilFinish := operation.writeUntilFinish

/-- The second graph is the first one with the unit of one operation. -/
structure Made (program : Program) (block : BlockId) (op : OpId) (operation : Operation)
    (g g' : Graph) : Prop extends WellFormed g' where
  size : g'.units.size = g.units.size + 1
  units : ∀ id, g'.units[id]? =
    if id = g.units.size then some (unitOf program block op operation g.units.size)
    else g.units[id]?
  setting : g'.setting = g.setting
  holders : g'.holders = g.holders.insert (.op op) g.units.size
  loop : g'.loopOp = g.loopOp ∨ operation.terminator = true ∧ block = g.entryBlock ∧
    operation.branchTarget = some g.entryBlock
  terminators : g'.terminators = g.terminators ∨
    g'.terminators = g.terminators.insert block g.units.size ∧ operation.isControl = true

theorem made_createOp (hg : g.WellFormed) {loops : Bool}
    (h : createOp program block op g = .ok (g', loops)) :
    ∃ operation, program.ops.operation op = .ok operation ∧
      Made program block op operation g g' := by
  obtain ⟨operation, hoperation, h⟩ := Checked.bind_eq_ok.mp h
  obtain ⟨changed, hchanged, h⟩ := Checked.bind_eq_ok.mp h
  refine ⟨operation, hoperation, ?_⟩
  have hwell : changed.WellFormed :=
    hg.createUnit.of_outline_eq (outline_changeUnit hchanged fun _ => rfl)
  have hunits : ∀ id, changed.units[id]? = if id = g.units.size then
      some { unitOf program block op operation g.units.size with terminator := false }
      else g.units[id]? := by
    intro id
    rw [getElem?_changeUnit hchanged, getElem?_createUnit]
    by_cases hid : id = g.units.size
    · subst hid
      simp [nextId, unitOf]
    · simp [nextId, hid, Ne.symm hid]
  obtain ⟨hsize, hsetting, hholders, hloop, hends⟩ := rest_changeUnit hchanged
  have hsize : changed.units.size = g.units.size + 1 := by
    rw [hsize]
    simp [createUnit]
  have hholders : changed.holders = g.holders.insert (.op op) g.units.size := by
    rw [hholders]
    rfl
  split at h
  next hterminator =>
    obtain ⟨ended, hended, h⟩ := Checked.bind_eq_ok.mp h
    obtain ⟨⟨loops', looped⟩, hlooped, h⟩ := Checked.bind_eq_ok.mp h
    cases h
    obtain ⟨marked, hmarked, hended⟩ := Checked.bind_eq_ok.mp hended
    obtain rfl := Checked.pure_eq_ok.mp hended
    have hmarkedUnits : ∀ id, marked.units[id]? = if id = g.units.size then
        some (unitOf program block op operation g.units.size) else g.units[id]? := by
      intro id
      rw [getElem?_changeUnit hmarked, hunits]
      by_cases hid : id = g.units.size
      · subst hid
        simp [nextId, unitOf, hterminator]
      · simp [nextId, hid, Ne.symm hid]
    have hmarkedWell : marked.WellFormed :=
      hwell.of_outline_eq (outline_changeUnit hmarked fun _ => rfl)
    obtain ⟨hmarkedSize, hmarkedSetting, hmarkedHolders, hmarkedLoop, hmarkedEnds⟩ :=
      rest_changeUnit hmarked
    have hmarkedSame : marked.terminators = g.terminators := hmarkedEnds.trans hends
    have hentry : marked.entryBlock = g.entryBlock :=
      congrArg Prod.fst (hmarkedSetting.trans hsetting)
    have hmade : Made program block op operation g marked :=
      ⟨hmarkedWell, hmarkedSize.trans hsize, hmarkedUnits, hmarkedSetting.trans hsetting,
        hmarkedHolders.trans hholders, Or.inl (hmarkedLoop.trans hloop), Or.inl hmarkedSame⟩
    have hended : marked.terminators.insert block g.nextId =
        g.terminators.insert block g.units.size ∧ operation.isControl = true :=
      ⟨by rw [hmarkedSame, nextId], by simp [Operation.isControl, hterminator]⟩
    obtain ⟨unit, hunit, hlooped⟩ := Checked.bind_eq_ok.mp hlooped
    rw [unit_eq_ok] at hunit
    have hnew := hunit.symm.trans (hmarkedUnits g.nextId)
    rw [nextId, if_pos rfl, Option.some_inj] at hnew
    split at hlooped
    next hcan =>
      cases hlooped
      have hcan : (block = marked.entryBlock) ∧
          operation.branchTarget = some marked.entryBlock := by
        simpa [canLoop, hnew, unitOf, hterminator] using hcan
      rw [hentry] at hcan
      exact ⟨hmarkedWell.of_outline_eq rfl, hmade.size, hmade.units, hmade.setting, hmade.holders,
        Or.inr ⟨hterminator, hcan⟩, Or.inr hended⟩
    next =>
      cases hlooped
      exact ⟨hmarkedWell.of_outline_eq rfl, hmade.size, hmade.units, hmade.setting, hmade.holders,
        hmade.loop, Or.inr hended⟩
  next hterminator =>
    cases h
    refine ⟨hwell, hsize, fun id => ?_, hsetting, hholders, Or.inl hloop, Or.inl hends⟩
    rw [hunits]
    simp [unitOf, Bool.eq_false_iff.mpr hterminator]

namespace Made

variable {operation : Operation}

theorem leads_iff (h : Made program block op operation g g') {instr : Instr} {id : UnitId} :
    g'.Leads instr id ↔ (id = g.units.size ∧ Instr.op op = instr) ∨ g.Leads instr id := by
  unfold Leads
  rw [h.units]
  by_cases hid : id = g.units.size
  · subst hid
    simp [unitOf]
  · simp [hid]

theorem holder? (h : Made program block op operation g g') (instr : Instr) :
    g'.holder? instr = if Instr.op op = instr then some g.units.size else g.holder? instr := by
  rw [Graph.holder?, h.holders, Table.get?_insert, Graph.holder?]

theorem ends (h : Made program block op operation g g') {other : BlockId} {id : UnitId}
    (hend : g'.terminator? other = some id) : g.terminator? other = some id ∨
      other = block ∧ id = g.units.size ∧ operation.isControl = true := by
  rw [terminator?] at hend ⊢
  rcases h.terminators with heq | ⟨heq, hcontrol⟩
  · rw [heq] at hend
    exact Or.inl hend
  · rw [heq, Table.get?_insert] at hend
    split at hend
    next hblock =>
      cases hend
      exact Or.inr ⟨hblock.symm, rfl, hcontrol⟩
    next => exact Or.inl hend

theorem agrees (h : Made program block op operation g g') : AgreesBelow g.units.size g g' := by
  refine agreesBelow_of_getElem?_eq fun id hid => ?_
  rw [h.units, if_neg (Nat.ne_of_lt hid)]

theorem fresh (hoperation : program.ops.operation op = .ok operation) (hop : op ∈ basic.ops) :
    (unitOf program basic.id op operation g.units.size).Fresh program basic :=
  ⟨⟨rfl, rfl, Or.inr ⟨op, hop, rfl, operation, hoperation, rfl, rfl, rfl⟩,
    operation.isControl_of_phi⟩, rfl, rfl⟩

theorem extended (h : Made program basic.id op operation g g')
    (hg : Extended program basic start g) (hoperation : program.ops.operation op = .ok operation)
    (hop : op ∈ basic.ops) : Extended program basic start g' where
  toWellFormed := h.toWellFormed
  agrees := hg.agrees.trans (h.agrees.mono hg.size)
  size := by
    rw [h.size]
    exact Nat.le_succ_of_le hg.size
  setting := h.setting.trans hg.setting
  held := hg.held.of_new h.leads_iff h.holders
  fresh := by
    intro id unit hid hunit
    rw [h.units] at hunit
    split at hunit
    next =>
      cases hunit
      exact fresh hoperation hop
    next => exact hg.fresh hid hunit
  others := by
    intro other hother
    rw [h.holder?, if_neg, hg.others hother]
    rintro heq
    cases heq
    exact hother hop

end Made

/-- The units of some operations of a block are there, without dependencies. -/
structure Created (program : Program) (basic : BasicBlock) (start g : Graph)
    (created : List (OpId × UnitId)) : Prop extends Extended program basic start g where
  made : ∀ {op id}, (op, id) ∈ created → start.units.size ≤ id ∧ g.Leads (.op op) id ∧
    g.bundle? id = fun _ => none
  holder : ∀ {op id}, (op, id) ∈ created →
    ∃ holder, (op, holder) ∈ created ∧ g.holder? (.op op) = some holder
  loop : g.loopOp = start.loopOp ∨ LoopsBack program basic start
  ends : ∀ {block id}, g.terminator? block = some id → start.terminator? block = some id ∨
    block = basic.id ∧ start.units.size ≤ id ∧ g.IsControl id

theorem Created.createOp (hg : Created program basic start g created) (hop : op ∈ basic.ops)
    {loops : Bool} (h : Lowering.createOp program basic.id op g = .ok (g', loops)) :
    Created program basic start g' (created ++ [(op, g.nextId)]) := by
  obtain ⟨operation, hoperation, hmade⟩ := made_createOp hg.toWellFormed h
  refine ⟨hmade.extended hg.toExtended hoperation hop, ?_, ?_, ?_, fun hend => ?_⟩
  · intro other id hmem
    rcases List.mem_append.mp hmem with hmem | hmem
    · obtain ⟨hle, hleads, hbundles⟩ := hg.made hmem
      exact ⟨hle, hmade.leads_iff.mpr (Or.inr hleads),
        (hmade.agrees.edges hleads.lt_size).trans hbundles⟩
    · obtain ⟨rfl, rfl⟩ : other = op ∧ id = g.nextId := by simpa using hmem
      refine ⟨hg.size, hmade.leads_iff.mpr (Or.inl ⟨rfl, rfl⟩), ?_⟩
      funext source
      rw [bundle?, hmade.units, nextId, if_pos rfl]
      rfl
  · intro other id hmem
    by_cases heq : other = op
    · subst heq
      exact ⟨g.nextId, by simp, by rw [hmade.holder?, if_pos rfl, nextId]⟩
    · have hmem : (other, id) ∈ created := by simpa [heq] using hmem
      obtain ⟨holder, hholder, hholds⟩ := hg.holder hmem
      refine ⟨holder, List.mem_append_left _ hholder, ?_⟩
      rw [hmade.holder?, if_neg, hholds]
      exact fun h => heq (Instr.op.inj h).symm
  · have hentry : g.entryBlock = start.entryBlock := congrArg Prod.fst hg.setting
    rcases hmade.loop with hsame | ⟨hterminator, hblock, htarget⟩
    · exact hsame ▸ hg.loop
    · rw [hentry] at hblock htarget
      exact Or.inr ⟨hblock, op, hop, operation, hoperation, hterminator, htarget⟩
  · rcases hmade.ends hend with hold | ⟨rfl, rfl, hcontrol⟩
    · refine (hg.ends hold).imp_right fun hnew => ⟨hnew.1, hnew.2.1, ?_⟩
      exact (hmade.agrees.isControl_iff hnew.2.2.lt_size).mpr hnew.2.2
    · refine Or.inr ⟨rfl, hg.size, _, by rw [hmade.units, if_pos rfl], hcontrol⟩

theorem createNext_eq_ok {σ : Type} {now last : Journaled σ}
    {sofar result : Graph × List (OpId × UnitId)}
    (h : createNext program block sofar op now = .ok result last) :
    ∃ loops, createOp program block op sofar.1 = .ok (result.1, loops) ∧
      result.2 = sofar.2 ++ [(op, sofar.1.nextId)] := by
  obtain ⟨⟨g', loops⟩, hcreate, h⟩ := Step.lift_bind_eq_ok.mp h
  have hresult : result = (g', sofar.2 ++ [(op, sofar.1.nextId)]) := by
    cases loops with
    | true =>
        obtain ⟨_, _, _, h⟩ := Step.bind_eq_ok.mp h
        exact (Step.pure_eq_ok.mp h).1
    | false => exact (Step.pure_eq_ok.mp h).1
  subst hresult
  exact ⟨loops, hcreate, rfl⟩

theorem created_createOps {σ : Type} {now last : Journaled σ} {ops : List OpId}
    {created' : List (OpId × UnitId)} (hg : Created program basic start g created)
    (hops : ∀ op ∈ ops, op ∈ basic.ops)
    (h : ops.foldlM (createNext program basic.id) (g, created) now = .ok (g', created') last) :
    Created program basic start g' created' ∧ (∀ pair ∈ created, pair ∈ created') ∧
      (∀ op ∈ ops, ∃ id, (op, id) ∈ created') ∧
      ∀ {instr id}, g.Leads instr id → g'.Leads instr id := by
  induction ops generalizing g created now with
  | nil =>
      obtain ⟨heq, _⟩ := Step.pure_eq_ok.mp h
      cases heq
      exact ⟨hg, fun _ h => h, by simp, fun h => h⟩
  | cons op rest ih =>
      rw [List.foldlM_cons, Step.bind_eq_ok] at h
      obtain ⟨⟨g₁, created₁⟩, now₁, hround, h⟩ := h
      obtain ⟨loops, hcreate, rfl⟩ := createNext_eq_ok hround
      have hnext := hg.createOp (hops op List.mem_cons_self) hcreate
      obtain ⟨_, _, hmade⟩ := made_createOp hg.toWellFormed hcreate
      obtain ⟨hlast, hkept, hrest, hleads⟩ :=
        ih hnext (fun other hother => hops other (List.mem_cons_of_mem op hother)) h
      refine ⟨hlast, fun pair hpair => hkept pair (List.mem_append_left _ hpair), ?_,
        fun hold => hleads (hmade.leads_iff.mpr (Or.inr hold))⟩
      intro other hother
      rcases List.mem_cons.mp hother with rfl | hother
      · exact ⟨g.nextId, hkept _ (by simp)⟩
      · exact hrest other hother

theorem created_enter {l : Lowering} {entry : UnitId} (hg : l.graph.WellFormed)
    (hheld : l.graph.Held) (hroot : l.graph.Leads (.entry l.graph.entryBlock) l.graph.entryRoot)
    (h : l.enter basic.id = .ok (g, entry)) :
    Created program basic l.graph g [] ∧ ∃ block, g.Leads (.entry block) entry := by
  unfold enter at h
  split at h
  next =>
    cases h
    refine ⟨⟨Extended.refl hg hheld, fun hmem => ?_, fun hmem => ?_, Or.inl rfl, Or.inl⟩,
      _, hroot⟩ <;> exact absurd hmem List.not_mem_nil
  next =>
    obtain ⟨chained, hchain, h⟩ := Checked.bind_eq_ok.mp h
    cases h
    have hentered : Extended program basic l.graph (l.graph.createEntry basic.id) := by
      refine ⟨hg.createUnit, agreesBelow_createUnit, ?_, rfl, hheld.createUnit, ?_, ?_⟩
      · simp [createEntry, createUnit]
      · intro id unit hid hunit
        unfold createEntry at hunit
        rw [getElem?_createUnit] at hunit
        split at hunit
        next =>
          cases hunit
          exact ⟨⟨rfl, rfl, Or.inl rfl, fun _ => rfl⟩, rfl, rfl⟩
        next => exact absurd (lt_size_of_getElem? hunit) (Nat.not_lt.mpr hid)
      · intro op _
        unfold createEntry
        rw [holder?_createUnit, if_neg (by simp)]
    have hleads : (l.graph.createEntry basic.id).Leads (.entry basic.id) l.graph.nextId :=
      leads_createUnit.mpr (Or.inl ⟨rfl, rfl⟩)
    have hchained : Extended program basic l.graph g ∧
        g.Leads (.entry basic.id) l.graph.nextId ∧ g.loopOp = l.graph.loopOp ∧
          g.terminator? = l.graph.terminator? := by
      unfold chain at hchain
      split at hchain
      · cases hchain
        exact ⟨hentered, hleads, rfl, rfl⟩
      · refine ⟨hentered.addDep (Nat.le_refl _) hchain, ?_, ?_⟩
        · exact (leads_iff_of_bare_eq (bare_addDep hchain)).mpr hleads
        · obtain ⟨units, rfl⟩ := exists_eq_of_addDep hentered.toListed hchain
          exact ⟨rfl, rfl⟩
    obtain ⟨hextended, hleads, hloop, hends⟩ := hchained
    refine ⟨⟨hextended, fun hmem => ?_, fun hmem => ?_, Or.inl hloop, fun hend => Or.inl ?_⟩, _,
      hleads⟩
    · exact absurd hmem List.not_mem_nil
    · exact absurd hmem List.not_mem_nil
    · exact (congrFun hends _).symm.trans hend

end Lowering

end SlotScheduling
