import SlotScheduling.Proofs.Graph.Exits
import SlotScheduling.Proofs.Graph.Forward

/-!
# Blocks in order

A block of known operations that only wait, within one iteration, for operations whose units are
made before theirs is always lowered.  Behind the entry, its graph has one unit for each operation,
in that order, which waits for an earlier one.
-/

namespace SlotScheduling

theorem Checked.exists_anyM {α : Type} {list : List α} {test : α → Checked Bool}
    (h : ∀ a ∈ list, ∃ passes, test a = .ok passes) : ∃ found, list.anyM test = .ok found := by
  induction list with
  | nil => exact ⟨false, rfl⟩
  | cons first rest ih =>
      obtain ⟨⟨passes, hfirst⟩, hrest⟩ := List.forall_mem_cons.mp h
      rw [List.anyM, hfirst, ok_bind]
      cases passes with
      | true => exact ⟨true, rfl⟩
      | false => exact ih hrest

namespace Graph

variable {g g' made : Graph} {id target source : UnitId} {edge : DepEdge}

/-- The graph has forward dependencies without fixed timing, and the units of the other one. -/
structure Attachable (made g : Graph) : Prop extends Listed g, Tidy g where
  forward : g.Forward
  bare : g.bare = made.bare

/-- A wait for an earlier unit within the same iteration never conflicts with another one. -/
theorem Attachable.exists_addDep (hg : Attachable made g) (hlt : source < target)
    (htarget : target < g.units.size) (hlocal : edge.distance = 0)
    (hloose : edge.isFixedTiming = false) :
    ∃ g', g.addDep target source edge = .ok g' ∧ Attachable made g' := by
  obtain ⟨g', hadd⟩ := Graph.exists_addDep hg.toListed (Nat.ne_of_lt hlt) htarget
    (Nat.lt_trans hlt htarget) fun old hold =>
      EdgeBundle.exists_addEdge (hg.toTidy.loose hold) hloose hlocal
  have hbare := bare_addDep hadd
  exact ⟨g', hadd, hg.toListed.of_bare_eq hbare, hg.toTidy.addDep hloose hadd,
    hg.forward.addDep hg.toListed hlt hlocal hadd, hbare.trans hg.bare⟩

theorem Forward.lt_of_dependsOn (hg : g.Forward) (h : g.DependsOn target source) :
    source < target := by
  obtain ⟨bundle, hbundle⟩ := dependsOn_iff_bundle?.mp h
  exact (hg hbundle).1

end Graph

namespace Lowering

open SlotScheduling.Graph

variable {σ : Type} {program : Program} {basic : BasicBlock} {block : BlockId} {g made : Graph}
  {op : OpId} {entry id : UnitId} {order : List OpId} {created : List (OpId × UnitId)}
  {entrySlot : Nat} {now last : Journaled σ}

/-! ## Units -/

theorem exists_changeUnit_eq_ok (hid : id < g.units.size) (change : ScheduleUnit → ScheduleUnit) :
    ∃ g', g.changeUnit id change = .ok g' ∧ id < g'.units.size :=
  ⟨_, changeUnit_eq_ok.mpr ⟨hid, rfl⟩, by simpa using hid⟩

theorem exists_trySetLoopOp (hid : id < g.units.size) (target : Option BlockId) :
    ∃ loops g', g.trySetLoopOp id target = .ok (loops, g') := by
  rw [trySetLoopOp, unit_eq_ok.mpr (Array.getElem?_eq_getElem hid), Checked.ok_bind]
  split <;> exact ⟨_, _, rfl⟩

theorem exists_createOp (hop : ∃ operation, program.ops.operation op = .ok operation) :
    ∃ g' loops, createOp program block op g = .ok (g', loops) := by
  obtain ⟨operation, hoperation⟩ := hop
  have hnew : g.nextId < (g.createUnit (.op op) block operation.funcUnit operation.isControl
      (program.oracle.stepsToFinish op)).units.size := by
    simp [createUnit, nextId]
  obtain ⟨changed, hchange, hid⟩ := exists_changeUnit_eq_ok hnew fun unit =>
    { unit with phi := operation.phi, writeUntilFinish := operation.writeUntilFinish }
  rw [createOp, hoperation, Checked.ok_bind]
  dsimp only
  rw [hchange, Checked.ok_bind]
  split
  · obtain ⟨ended, hend, hid⟩ : ∃ ended, changed.setTerminator block g.nextId = .ok ended ∧
        g.nextId < ended.units.size := by
      obtain ⟨marked, hmark, hid⟩ := exists_changeUnit_eq_ok hid fun unit =>
        { unit with terminator := true }
      refine ⟨{ marked with terminators := marked.terminators.insert block g.nextId }, ?_, hid⟩
      rw [setTerminator, hmark]
      rfl
    obtain ⟨loops, g', hloop⟩ := exists_trySetLoopOp hid operation.branchTarget
    exact ⟨g', loops, by rw [hend, Checked.ok_bind, hloop]; rfl⟩
  · exact ⟨_, _, rfl⟩

/-- Creating the units of known operations numbers them in order. -/
theorem exists_createOps {ops : List OpId} (hg : g.WellFormed)
    (hops : ∀ op ∈ ops, ∃ operation, program.ops.operation op = .ok operation) (block : BlockId)
    (created : List (OpId × UnitId)) (now : Journaled σ) :
    ∃ made last, ops.foldlM (createNext program block) (g, created) now =
        .ok (made, created ++ ops.zipIdx g.units.size) last ∧
      made.units.size = g.units.size + ops.length := by
  induction ops generalizing g created now with
  | nil => exact ⟨g, now, by rw [List.zipIdx_nil, List.append_nil]; rfl, rfl⟩
  | cons op rest ih =>
      obtain ⟨hop, hrest⟩ := List.forall_mem_cons.mp hops
      obtain ⟨g', loops, hcreate⟩ : ∃ g' loops, createOp program block op g = .ok (g', loops) :=
        exists_createOp hop
      obtain ⟨operation, _, hmade⟩ := made_createOp hg hcreate
      obtain ⟨middle, hround⟩ : ∃ middle, createNext program block (g, created) op now =
          .ok (g', created ++ [(op, g.units.size)]) middle := by
        rw [createNext, Step.lift_bind_of_eq_ok hcreate]
        cases loops with
        | true => exact ⟨_, rfl⟩
        | false => exact ⟨_, rfl⟩
      obtain ⟨made, last, hlast, hsize⟩ :=
        ih hmade.toWellFormed hrest (created ++ [(op, g.units.size)]) middle
      refine ⟨made, last, ?_, ?_⟩
      · rw [List.foldlM_cons, Step.bind_of_eq_ok hround, hlast, hmade.size, List.append_assoc,
          List.zipIdx_cons]
        rfl
      · rw [hsize, hmade.size, List.length_cons]
        omega

/-! ## Dependencies -/

section

variable (hentry : entry < id)

include hentry

theorem exists_attachOperands (horder : CreatedInOrder program basic made)
    (hrecorded : ∃ dependences, program.oracle.dependences op = some dependences)
    (hop : op ∈ basic.ops) (hleads : made.Leads (.op op) id) (hg : Attachable made g) :
    ∃ g', attachOperands program entry g (op, id) = .ok g' ∧ Attachable made g' := by
  obtain ⟨dependences, hall⟩ := hrecorded
  simp only [attachOperands, hall]
  refine Checked.exists_foldlM (fun dependence hmem now hnow => ?_) hg
  have hid : id < now.units.size := size_eq_of_bare_eq hnow.bare ▸ hleads.lt_size
  obtain ⟨hlocal, hbelow⟩ := horder op hop dependences hall dependence hmem
  unfold attachOperand
  split
  next source hsource =>
    rw [holder?_of_bare_eq hnow.bare] at hsource
    exact hnow.exists_addDep (hbelow source hsource id hleads.lt_size hleads) hid
      ((edgeOf_distance dependence).trans hlocal) (isFixedTiming_edgeOf dependence)
  next => exact hnow.exists_addDep hentry hid rfl rfl

theorem exists_anchorUnit (hid : id < made.units.size) (hg : Attachable made g) :
    ∃ g', anchorUnit entry block g id = .ok g' ∧ Attachable made g' := by
  have hid : id < g.units.size := size_eq_of_bare_eq hg.bare ▸ hid
  have hunit := Array.getElem?_eq_getElem hid
  obtain ⟨anchored, hanchored⟩ : ∃ anchored,
      g.units[id].deps.entries.anyM (isLocalDep g block) = .ok anchored := by
    refine Checked.exists_anyM fun dep hdep => ?_
    have hlt : dep.1 < id :=
      hg.forward.lt_of_dependsOn ⟨_, hunit, List.mem_map_of_mem hdep⟩
    rw [isLocalDep, unit_eq_ok.mpr (Array.getElem?_eq_getElem (Nat.lt_trans hlt hid))]
    exact ⟨_, rfl⟩
  rw [anchorUnit, unit_eq_ok.mpr hunit, Checked.ok_bind]
  dsimp only
  rw [hanchored, Checked.ok_bind]
  split
  · exact ⟨g, rfl, hg⟩
  · exact hg.exists_addDep hentry hid rfl rfl

end

/-- The units of operations that wait for earlier ones can all be attached. -/
theorem exists_attachUnits (block : BlockId) (hmade : Attachable made made)
    (horder : CreatedInOrder program basic made)
    (hrecorded : ∀ op ∈ basic.ops, ∃ dependences, program.oracle.dependences op = some dependences)
    (hcreated : ∀ {op id}, (op, id) ∈ created →
      op ∈ basic.ops ∧ made.Leads (.op op) id ∧ entry < id) :
    ∃ g, attachUnits program entry block created made = .ok g ∧ Attachable made g := by
  refine Checked.exists_bind (P := Attachable made) ?_ fun attached hattached => ?_
  · refine Checked.exists_foldlM (fun ⟨op, id⟩ hmem now hnow => ?_) hmade
    obtain ⟨hop, hleads, hentry⟩ := hcreated hmem
    exact exists_attachOperands hentry horder (hrecorded op hop) hop hleads hnow
  · refine Checked.exists_foldlM (fun id hid now hnow => ?_) hattached
    obtain ⟨⟨op, _⟩, hmem, rfl⟩ := List.mem_map.mp hid
    obtain ⟨_, hleads, hentry⟩ := hcreated hmem
    exact exists_anchorUnit hentry hleads.lt_size hnow

/-! ## Blocks -/

/-- The operations of the block are known, are listed once, and wait within one iteration, as far as
they wait for each other, for those whose units are made before. -/
structure InOrder (program : Program) (basic : BasicBlock) (order : List OpId) : Prop where
  units : unitOrder program basic = .ok order
  nodup : basic.ops.Nodup
  recorded : ∀ op ∈ basic.ops, ∃ dependences, program.oracle.dependences op = some dependences
  waits : ∀ op ∈ basic.ops, ∀ dependences ∈ program.oracle.dependences op,
    ∀ dependence ∈ dependences, dependence.distance = 0 ∧
      ∀ source ∈ dependence.source, source ∈ basic.ops → order.idxOf source < order.idxOf op

theorem InOrder.nodup_order (h : InOrder program basic order) : order.Nodup :=
  (perm_unitOrder h.units).nodup_iff.mpr h.nodup

theorem eq_of_mem_zipIdx {n : Nat} (hnodup : order.Nodup) (hmem : (op, id) ∈ order.zipIdx n) :
    id = n + order.idxOf op := by
  obtain ⟨hle, hlt, hop⟩ := List.mem_zipIdx hmem
  rw [hop, hnodup.idxOf_getElem]
  exact (Nat.add_sub_of_le hle).symm

/-- Behind the entry, the graph has one unit for each of the operations, in order, which depends on
earlier ones. -/
structure Numbered (order : List OpId) (g : Graph) : Prop where
  size : g.units.size = order.length + 1
  leads : ∀ {op id}, g.Leads (.op op) id ↔ (op, id) ∈ order.zipIdx 1
  holder : ∀ {op id}, g.holder? (.op op) = some id ↔ (op, id) ∈ order.zipIdx 1
  forward : g.Forward

theorem InOrder.createdInOrder (h : InOrder program basic order) (hg : Numbered order g) :
    CreatedInOrder program basic g := by
  intro op hop dependences hall dependence hmem
  obtain ⟨hlocal, hbefore⟩ := h.waits op hop dependences hall dependence hmem
  refine ⟨hlocal, fun source hsource id _ hid => ?_⟩
  obtain ⟨s, hs, hsource⟩ := Option.bind_eq_some_iff.mp hsource
  have hsource := hg.holder.mp hsource
  have hlisted : s ∈ basic.ops := (mem_unitOrder h.units).mp (List.fst_mem_of_mem_zipIdx hsource)
  rw [eq_of_mem_zipIdx h.nodup_order hsource, eq_of_mem_zipIdx h.nodup_order (hg.leads.mp hid)]
  exact Nat.add_lt_add_left (hbefore s hs hlisted) 1

/-- The units of operations in order can all be made. -/
theorem InOrder.exists_made (h : InOrder program basic order) (entrySlot : Nat)
    (now : Journaled σ) : ∃ made middle,
      createOps program basic.id order (Graph.start basic.id entrySlot) now =
        .ok (made, order.zipIdx 1) middle ∧ Numbered order made ∧ Attachable made made := by
  have hstart := OfBlock.start basic.id entrySlot
  have hops : ∀ op ∈ order, op ∈ basic.ops := fun op hop => (mem_unitOrder h.units).mp hop
  have hknown : ∀ op ∈ order, ∃ operation, program.ops.operation op = .ok operation := by
    intro op hop
    obtain ⟨ends, hlisted, _, hends⟩ := exists_ends_of_unitOrder h.units
    obtain ⟨pair, hpair, rfl⟩ := List.mem_map.mp (hlisted ▸ hops op hop)
    exact (hends pair hpair).imp fun _ hoperation => hoperation.1
  obtain ⟨made, middle, hcreate, hsize⟩ :=
    exists_createOps hstart.toWellFormed hknown basic.id [] now
  rw [size_start, List.nil_append] at hcreate
  rw [size_start, Nat.add_comm] at hsize
  obtain ⟨hentered, _, _⟩ := created_enter hstart.toWellFormed (held_start _ _)
    (leads_start.mpr ⟨rfl, rfl⟩) (enter_start basic.id entrySlot)
  obtain ⟨hcreated, _, _, _⟩ := created_createOps hentered hops hcreate
  have hleads : ∀ {op id}, made.Leads (.op op) id ↔ (op, id) ∈ order.zipIdx 1 := by
    refine ⟨fun hid => ?_, fun hmem => (hcreated.made hmem).2.1⟩
    refine ((addsOps_createOps hstart.toWellFormed hcreate).2 hid).resolve_left fun hold => ?_
    cases (leads_start.mp hold).2
  -- An operation that is listed once is held by the one unit that was made for it.
  have hholder : ∀ {op id}, made.holder? (.op op) = some id ↔ (op, id) ∈ order.zipIdx 1 := by
    refine ⟨fun hid => hleads.mp (hcreated.held.holder hid).leads, fun hmem => ?_⟩
    obtain ⟨other, hother, hholds⟩ := hcreated.holder hmem
    rw [hholds, eq_of_mem_zipIdx h.nodup_order hother, eq_of_mem_zipIdx h.nodup_order hmem]
  have hforward : made.Forward :=
    forward_createOps hstart.toWellFormed (forward_start basic.id entrySlot) hcreate
  exact ⟨made, middle, hcreate, ⟨hsize, hleads, hholder, hforward⟩, hcreated.toListed,
    tidy_createOps hstart (tidy_start basic.id entrySlot) hcreate, hforward, rfl⟩

/-- A block of operations in order is always lowered. -/
theorem InOrder.exists_lowerBlock (h : InOrder program basic order) (entrySlot : Nat)
    (now : Journaled σ) : ∃ l last,
      lowerBlock program (start basic.id entrySlot) basic now = .ok l last ∧
        Numbered order l.graph := by
  obtain ⟨made, middle, hcreate, hnumbered, hmade⟩ := h.exists_made entrySlot now
  have hplaces : ∀ {op id}, (op, id) ∈ order.zipIdx 1 → op ∈ basic.ops ∧
      made.Leads (.op op) id ∧ (Graph.start basic.id entrySlot).entryRoot < id := fun hmem =>
    ⟨(mem_unitOrder h.units).mp (List.fst_mem_of_mem_zipIdx hmem), hnumbered.leads.mpr hmem,
      (List.mem_zipIdx hmem).1⟩
  obtain ⟨attached, hattach, hattached⟩ :=
    exists_attachUnits basic.id hmade (h.createdInOrder hnumbered) h.recorded hplaces
  have hbare := hattached.bare
  obtain ⟨last, hlower⟩ : ∃ last, lowerBlock program (start basic.id entrySlot) basic now =
      .ok ⟨attached, attached.terminator? basic.id, basic.id, true⟩ last := by
    rw [lowerBlock, Step.lift_bind_of_eq_ok (enter_start _ _)]
    dsimp only
    rw [Step.lift_bind_of_eq_ok h.units, Step.bind_of_eq_ok hcreate]
    dsimp only
    rw [Step.lift_bind_of_eq_ok hattach]
    exact ⟨_, rfl⟩
  exact ⟨_, last, hlower, (size_eq_of_bare_eq hbare).trans hnumbered.size,
    (leads_iff_of_bare_eq hbare).trans hnumbered.leads,
    holder?_of_bare_eq hbare ▸ hnumbered.holder, hattached.forward⟩

end Lowering

end SlotScheduling
