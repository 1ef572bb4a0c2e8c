import SlotScheduling.Proofs.Graph.Ordered
import SlotScheduling.Proofs.Graph.Verified

/-!
# Blocks that can be built

Whether a block of operations in order can be built is a matter of its exit alone.  The exit waits
for the control units that nothing uses, where the uses by the data path count like those by the
control path, and for the moves.  If there are none, then nothing holds the exit in its block, and
the checks refuse the graph.
-/

namespace SlotScheduling

/-- If all items but one end well, then the work ends like the one for this item. -/
theorem Checked.forM_eq {α : Type} {list : List α} {work : α → Checked PUnit} {item : α}
    (hmem : item ∈ list) (hothers : ∀ other ∈ list, other ≠ item → work other = .ok ⟨⟩) :
    list.forM work = work item := by
  cases hitem : work item with
  | ok result =>
      refine Checked.forM_eq_ok.mpr fun other hother => ?_
      by_cases heq : other = item
      · exact heq ▸ hitem
      · exact hothers other hother heq
  | error failure =>
      induction list with
      | nil => exact absurd hmem List.not_mem_nil
      | cons first rest ih =>
          show (work first >>= fun _ => rest.forM work) = _
          by_cases heq : first = item
          · rw [heq, hitem]
            rfl
          · rw [hothers first List.mem_cons_self heq, ok_bind]
            exact ih ((List.mem_cons.mp hmem).resolve_left (Ne.symm heq))
              fun other hother => hothers other (List.mem_cons_of_mem first hother)

namespace Graph

variable {g : Graph} {id : UnitId} {unit : ScheduleUnit}

/-! ## Checks -/

/-- A unit that is used, and all of whose dependencies are good ones on its block, only fails its
check if it has no dependencies. -/
theorem verifyUnit_of_here (hunit : g.units[id]? = some unit)
    (hdeps : ∀ dep ∈ unit.deps.entries, g.verifyDep unit id dep.1 dep.2 = .ok true)
    (hused : unit.uses.size = 0 → some id = g.exitRoot) :
    g.verifyUnit id = if unit.slot = none ∧ unit.fixedTiming = false ∧ unit.lead.isEntry = false ∧
      unit.deps.entries = [] then
        broken .floatingUnit s!"[{id}] is not constrained by block#{unit.block}"
      else .ok ⟨⟩ := by
  have hfold : ∀ (deps : List (UnitId × EdgeBundle)) (anchored : Bool),
      (∀ dep ∈ deps, g.verifyDep unit id dep.1 dep.2 = .ok true) →
      deps.foldlM (fun anchored dep => do
        return (← g.verifyDep unit id dep.1 dep.2) || anchored) anchored =
          .ok (!deps.isEmpty || anchored) := by
    intro deps
    induction deps with
    | nil => exact fun _ _ => rfl
    | cons first rest ih =>
        intro anchored hdeps
        obtain ⟨hfirst, hrest⟩ := List.forall_mem_cons.mp hdeps
        rw [List.foldlM_cons, hfirst]
        refine (ih true hrest).trans ?_
        simp
  have hdetached : ¬(unit.slot = none ∧ unit.uses.size = 0 ∧ some id ≠ g.exitRoot) :=
    fun hnone => hnone.2.2 (hused hnone.2.1)
  rw [verifyUnit, unit_eq_ok.mpr hunit, Checked.ok_bind, hfold _ _ hdeps, Checked.ok_bind,
    if_neg hdetached]
  cases unit.deps.entries <;> simp [pure, Except.pure]

/-- The graph of a block that still lacks its exit.  Behind the entry, every unit depends on an
earlier one. -/
structure Rooted (block : BlockId) (entrySlot : Nat) (g : Graph) : Prop
    extends OfBlock block entrySlot g where
  forward : g.Forward
  entries : ∀ {id : UnitId} {unit : ScheduleUnit}, g.units[id]? = some unit →
    (unit.lead.isEntry = true ↔ id = g.entryRoot)
  sourced : ∀ {id}, id < g.units.size → id ≠ g.entryRoot → ∃ source, g.DependsOn id source

end Graph

namespace Lowering

open SlotScheduling.Graph

variable {σ : Type} {program : Program} {basic : BasicBlock} {order : List OpId} {g : Graph}
  {l : Lowering} {block : BlockId} {id : UnitId} {unit : ScheduleUnit} {entrySlot : Nat}
  {now last : Journaled σ}

/-! ## Exits -/

section

variable (h : Finishes l g) (hlow : Rooted l.lastBlock entrySlot l.graph)

include h hlow

theorem Finishes.inBlock (hunit : g.units[id]? = some unit) :
    unit.block = l.lastBlock ∧ (unit.lead.isEntry = true ↔ id = g.entryRoot) := by
  obtain ⟨_, low, hlowUnit, hbare⟩ | ⟨rfl, hbare⟩ := h.unit_cases hunit
  · have hblock : unit.block = low.block := (congrArg ScheduleUnit.block hbare :)
    have hlead : unit.lead = low.lead := (congrArg ScheduleUnit.lead hbare :)
    exact ⟨hblock.trans (hlow.units hlowUnit).block, hlead ▸ hlow.entries hlowUnit⟩
  · have hlead : unit.lead = .exit l.lastBlock := (congrArg ScheduleUnit.lead hbare :)
    refine ⟨(congrArg ScheduleUnit.block hbare :), fun hentry => ?_, fun hroot => ?_⟩
    · rw [hlead] at hentry
      cases hentry
    · exact absurd hroot (Nat.ne_of_gt hlow.root.lt_size)

/-- All dependencies are good ones within the block. -/
theorem Finishes.verifyDep_eq (hunit : g.units[id]? = some unit) {dep : UnitId × EdgeBundle}
    (hdep : dep ∈ unit.deps.entries) : g.verifyDep unit id dep.1 dep.2 = .ok true := by
  have hlt : dep.1 < id :=
    (h.forward hlow.forward).lt_of_dependsOn ⟨unit, hunit, List.mem_map_of_mem hdep⟩
  obtain ⟨producer, hproducer⟩ := h.toWellFormed.exists_source hunit hdep
  obtain ⟨hblock, hentry⟩ := h.inBlock hlow hunit
  refine verifyDep_eq_ok.mpr ⟨fun hbad => Nat.not_le.mpr hlt hbad.2.2, producer, hproducer,
    fun hbad => ?_, decide_eq_true ((h.inBlock hlow hproducer).1.trans hblock.symm)⟩
  rw [hentry.mp hbad.1] at hlt
  exact absurd hlt (Nat.not_lt_zero _)

/-- What nothing in the block uses is used by the exit, if it is a control unit. -/
theorem Finishes.size_uses_ne_zero (hunit : g.units[id]? = some unit)
    (hcontrol : unit.control = true) (hlt : id < l.graph.units.size) : unit.uses.size ≠ 0 := by
  obtain ⟨low, hlowUnit, hbare⟩ := h.agrees.exists_unit hlt hunit
  have hlowControl : low.control = true :=
    (congrArg ScheduleUnit.control hbare :).symm.trans hcontrol
  refine (exists_dependsOn h.toWellFormed hunit).mp ?_
  by_cases hunused : low.uses.size = 0
  · exact ⟨_, h.waits_iff.mpr ⟨low, hlowUnit, hlowControl, Or.inl hunused⟩⟩
  · obtain ⟨user, huser⟩ := (exists_dependsOn hlow.toWellFormed hlowUnit).mpr hunused
    obtain ⟨bundle, hbundle⟩ := dependsOn_iff_bundle?.mp huser
    have huserLt := (lt_size_of_bundle? hlow.toWellFormed hbundle).1
    exact ⟨user, dependsOn_iff_bundle?.mpr ⟨bundle, (h.agrees.edges huserLt).symm ▸ hbundle⟩⟩

/-- All units but the exit pass their checks. -/
theorem Finishes.verify_eq : g.verify = g.verifyUnit l.graph.units.size := by
  have hforward := h.forward hlow.forward
  have hentry : g.verifyEntry = .ok ⟨⟩ := by
    refine verifyEntry_eq_ok_iff.mpr ⟨?_, fun source hdepends => ?_⟩
    · exact h.size ▸ Nat.lt_succ_of_lt hlow.root.lt_size
    · exact Nat.not_lt_zero _ (hforward.lt_of_dependsOn hdepends)
  have hexit : g.verifyExit = .ok ⟨⟩ := by
    refine verifyExit_eq_ok_iff.mpr fun exit hexit => ?_
    obtain rfl := Option.some.inj (h.exitRoot.symm.trans hexit)
    refine ⟨h.size ▸ Nat.lt_succ_self _, fun user huse => ?_⟩
    have hdepends := h.linked.mpr huse
    have hlt : user < l.graph.units.size + 1 :=
      h.size ▸ lt_size_of_getElem? hdepends.choose_spec.1
    exact Nat.not_le.mpr (hforward.lt_of_dependsOn hdepends) (Nat.le_of_lt_succ hlt)
  rw [Graph.verify, hentry, Checked.ok_bind, hexit, Checked.ok_bind,
    verifyPositions_of_listed h.toListed, Checked.ok_bind]
  refine Checked.forM_eq (h.control.mpr h.isControl_exit) fun id hid hne => ?_
  obtain ⟨unit, hunit, hcontrol⟩ := h.control.mp hid
  have hlt : id < l.graph.units.size :=
    (h.lt_or_eq (lt_size_of_getElem? hunit)).resolve_right hne
  rw [verifyUnit_of_here hunit (fun dep hdep => h.verifyDep_eq hlow hunit hdep) fun hunused =>
    absurd hunused (h.size_uses_ne_zero hlow hunit hcontrol hlt), if_neg]
  -- The entry needs no dependencies, and all other units have some.
  rintro ⟨-, -, hinside, hnone⟩
  have hne : id ≠ l.graph.entryRoot := fun hroot => by
    rw [(h.inBlock hlow hunit).2.mpr hroot] at hinside
    cases hinside
  obtain ⟨source, hsource⟩ := hlow.sourced hlt hne
  obtain ⟨bundle, hbundle⟩ := dependsOn_iff_bundle?.mp hsource
  rw [← h.agrees.edges hlt, bundle?_eq hunit] at hbundle
  have hmem := Table.mem_entries_of_get?_eq_some hbundle
  rw [hnone] at hmem
  exact absurd hmem List.not_mem_nil

theorem Finishes.verify_of_isSink (hsink : l.graph.IsSink id) : g.verify = .ok ⟨⟩ := by
  obtain ⟨unit, hunit, _⟩ := h.isControl_exit
  rw [h.verify_eq hlow, verifyUnit_of_here hunit (fun dep hdep => h.verifyDep_eq hlow hunit hdep)
    fun _ => h.exitRoot.symm, if_neg]
  rintro ⟨-, -, -, hnone⟩
  obtain ⟨unit', hunit', hmem⟩ := h.waits_iff.mpr hsink
  obtain rfl := Option.some.inj (hunit.symm.trans hunit')
  rw [Table.keys, hnone] at hmem
  exact absurd hmem List.not_mem_nil

/-- An exit that has nothing to wait for floats. -/
theorem Finishes.verify_of_forall_not_isSink (hnone : ∀ id, ¬l.graph.IsSink id) :
    g.verify = broken .floatingUnit
      s!"[{l.graph.units.size}] is not constrained by block#{l.lastBlock}" := by
  obtain ⟨unit, hunit, _⟩ := h.isControl_exit
  have hbare := h.exit
  rw [hunit, Option.map_some, Option.some_inj] at hbare
  have hdeps : unit.deps.entries = [] := by
    refine List.eq_nil_iff_forall_not_mem.mpr fun dep hdep => hnone dep.1 ?_
    exact h.waits_iff.mp ⟨unit, hunit, List.mem_map_of_mem hdep⟩
  rw [h.verify_eq hlow, verifyUnit_of_here hunit (fun dep hdep => h.verifyDep_eq hlow hunit hdep)
    fun _ => h.exitRoot.symm, if_pos, (h.inBlock hlow hunit).1]
  have hlead : unit.lead = .exit l.lastBlock := (congrArg ScheduleUnit.lead hbare :)
  exact ⟨(congrArg ScheduleUnit.slot hbare :), (congrArg ScheduleUnit.fixedTiming hbare :),
    hlead ▸ rfl, hdeps⟩

end

/-! ## Lowered blocks -/

theorem rooted_lowerBlock
    (h : lowerBlock program (start basic.id entrySlot) basic now = .ok l last)
    (hforward : l.graph.Forward) : Rooted l.lastBlock entrySlot l.graph := by
  rw [(lowers_start h).2]
  refine ⟨(ofBlock_lowerBlock h).1, hforward, fun {id unit} hunit => ⟨fun hentry => ?_, ?_⟩,
    fun hlt hne => (exists_op_of_lowerBlock h (Array.getElem?_eq_getElem hlt) hne).1.imp
      fun _ => Honours.dependsOn⟩
  · by_contra hne
    obtain ⟨_, op, _, hlead, _⟩ := exists_op_of_lowerBlock h hunit hne
    rw [hlead] at hentry
    cases hentry
  · rintro rfl
    rw [(entry_of_lowerBlock h hunit).2]
    rfl

/-- The entry of a block with operations is used. -/
theorem not_isSink_entryRoot (hlow : Rooted block entrySlot l.graph)
    (h : lowerBlock program (start basic.id entrySlot) basic now = .ok l last)
    (hsize : 1 < l.graph.units.size) : ¬l.graph.IsSink l.graph.entryRoot := by
  rintro ⟨unit, hunit, _, hunused | hphi⟩
  · obtain ⟨source, hdepends⟩ := hlow.sourced hsize Nat.one_ne_zero
    have hroot : source = l.graph.entryRoot :=
      Nat.lt_one_iff.mp (hlow.forward.lt_of_dependsOn hdepends)
    exact (exists_dependsOn hlow.toWellFormed hunit).mp ⟨1, hroot ▸ hdepends⟩ hunused
  · rw [(entry_of_lowerBlock h hunit).1.phi] at hphi
    cases hphi

/-- Some operation of the block is one for whose unit the exit waits: a control operation that is a
move, or that no operation of the block waits for. -/
def Drains (program : Program) (basic : BasicBlock) : Prop :=
  ∃ op ∈ basic.ops, ∃ operation, program.ops.operation op = .ok operation ∧
    operation.isControl = true ∧
      (operation.phi = true ∨ ∀ user ∈ basic.ops, ¬program.oracle.Awaits user op)

/-- A unit is used if and only if an operation of the block waits for its operation. -/
theorem exists_dependsOn_iff_awaits
    (hlower : lowerBlock program (start basic.id entrySlot) basic now = .ok l last)
    (hnumbered : Numbered order l.graph) {op : OpId} (hop : l.graph.Leads (.op op) id) :
    (∃ user, l.graph.DependsOn user id) ↔ ∃ user ∈ basic.ops, program.oracle.Awaits user op := by
  obtain ⟨hlowers, _⟩ := lowers_start hlower
  have hholder : l.graph.holder? (.op op) = some id :=
    hnumbered.holder.mpr (hnumbered.leads.mp hop)
  constructor
  · rintro ⟨user, hdepends⟩
    obtain ⟨bundle, hbundle⟩ := dependsOn_iff_bundle?.mp hdepends
    obtain ⟨hlt, hlocal⟩ := hnumbered.forward hbundle
    obtain ⟨unit, hunit, _⟩ := hdepends
    obtain ⟨_, userOp, huserOp, hlead, _⟩ :=
      exists_op_of_lowerBlock hlower hunit (Nat.ne_of_gt (Nat.zero_lt_of_lt hlt))
    have huser : l.graph.holder? (.op userOp) = some user :=
      hnumbered.holder.mpr (hnumbered.leads.mp ⟨unit, hunit, hlead⟩)
    obtain ⟨dependences, dependence, hall, hmem, hsource, hedge⟩ :=
      hlowers.recorded huserOp huser hbundle hop
    exact ⟨userOp, huserOp, dependences, dependence, hall, hmem, hsource,
      by rw [← edgeOf_distance, ← hedge, hlocal]⟩
  · rintro ⟨user, huser, dependences, dependence, hall, hmem, hsource, _⟩
    obtain ⟨userId, _, hholds⟩ := hlowers.holder huser
    obtain ⟨bundle, hbundle, _⟩ :=
      hlowers.covered huser hholds dependence hall hmem hsource hholder
    exact ⟨userId, dependsOn_iff_bundle?.mpr ⟨bundle, hbundle⟩⟩

theorem exists_isSink_iff
    (hlower : lowerBlock program (start basic.id entrySlot) basic now = .ok l last)
    (hnumbered : Numbered order l.graph) (hne : order ≠ []) :
    (∃ id, l.graph.IsSink id) ↔ Drains program basic := by
  have hlow := rooted_lowerBlock hlower hnumbered.forward
  have hsize : 1 < l.graph.units.size := by
    rw [hnumbered.size]
    exact Nat.succ_lt_succ (List.length_pos_iff.mpr hne)
  constructor
  · rintro ⟨id, hsink⟩
    have hroot : id ≠ l.graph.entryRoot :=
      fun heq => not_isSink_entryRoot hlow hlower hsize (heq ▸ hsink)
    obtain ⟨unit, hunit, hcontrol, hsink⟩ := hsink
    obtain ⟨_, op, hop, hlead, operation, hoperation, hserves⟩ :=
      exists_op_of_lowerBlock hlower hunit hroot
    refine ⟨op, hop, operation, hoperation, hserves.2.1 ▸ hcontrol, ?_⟩
    rcases hsink with hunused | hphi
    · refine Or.inr fun user huser hawaits => ?_
      exact (exists_dependsOn hlow.toWellFormed hunit).mp
        ((exists_dependsOn_iff_awaits hlower hnumbered ⟨unit, hunit, hlead⟩).mpr
          ⟨user, huser, hawaits⟩) hunused
    · exact Or.inl (hserves.2.2 ▸ hphi)
  · rintro ⟨op, hop, operation, hoperation, hcontrol, hcases⟩
    obtain ⟨hlowers, _⟩ := lowers_start hlower
    obtain ⟨id, hpos, hholder⟩ := hlowers.holder hop
    obtain ⟨unit, hunit, hlead⟩ := hnumbered.leads.mpr (hnumbered.holder.mp hholder)
    obtain ⟨_, op', _, hlead', operation', hoperation', hserves⟩ :=
      exists_op_of_lowerBlock hlower hunit (Nat.ne_of_gt hpos)
    obtain rfl := Instr.op.inj (hlead.symm.trans hlead')
    obtain rfl := Except.ok.inj (hoperation.symm.trans hoperation')
    refine ⟨id, unit, hunit, hserves.2.1.trans hcontrol, ?_⟩
    rcases hcases with hphi | hunused
    · exact Or.inr (hserves.2.2.trans hphi)
    · left
      by_contra hsome
      obtain ⟨user, huser, hawaits⟩ :=
        (exists_dependsOn_iff_awaits hlower hnumbered ⟨unit, hunit, hlead⟩).mp
          ((exists_dependsOn hlow.toWellFormed hunit).mpr hsome)
      exact hunused user huser hawaits

/-! ## Built blocks -/

theorem InOrder.ne_nil (h : InOrder program basic order) (hne : basic.ops ≠ []) : order ≠ [] := by
  rintro rfl
  exact hne (perm_unitOrder h.units).nil_eq.symm

/-- A block of operations in order is built if its exit has something to wait for.  If it has not,
then the exit, which is the last unit, floats. -/
theorem InOrder.buildBlock_cases (h : InOrder program basic order) (hne : basic.ops ≠ [])
    (entrySlot : Nat) (now : Journaled σ) :
    (Drains program basic → ∃ g last, buildBlock program basic entrySlot now = .ok g last) ∧
      (¬Drains program basic → ∃ last, buildBlock program basic entrySlot now =
        .error (.error (.broken .floatingUnit
          s!"[{basic.ops.length + 1}] is not constrained by block#{basic.id}")) last) := by
  obtain ⟨l, middle, hlower, hnumbered⟩ := h.exists_lowerBlock entrySlot now
  have hlast := (lowers_start hlower).2
  have hlow := rooted_lowerBlock hlower hnumbered.forward
  obtain ⟨g, hfinishes, hfinish⟩ := exists_finishes hlow.toWellFormed
  have hbuild : buildBlock program basic entrySlot now =
      (liftM (do g.verify; return g : Checked Graph) : Step σ Graph) middle := by
    rw [buildBlock, Step.bind_of_eq_ok hlower, hfinish]
  have hsinks := exists_isSink_iff hlower hnumbered (h.ne_nil hne)
  rw [hbuild]
  constructor
  · intro hdrains
    obtain ⟨id, hsink⟩ := hsinks.mpr hdrains
    rw [hfinishes.verify_of_isSink hlow hsink]
    exact ⟨g, middle, rfl⟩
  · intro hdrains
    have hsize : l.graph.units.size = basic.ops.length + 1 := by
      rw [hnumbered.size, (perm_unitOrder h.units).length_eq]
    rw [hfinishes.verify_of_forall_not_isSink hlow fun id hsink => hdrains (hsinks.mp ⟨id, hsink⟩),
      hsize, hlast]
    exact ⟨middle, rfl⟩

theorem idxOf_le_last {before : List OpId} {op user : OpId} (hnodup : (before ++ [op]).Nodup)
    (huser : user ∈ before ++ [op]) : (before ++ [op]).idxOf user ≤ (before ++ [op]).idxOf op := by
  have hnew : op ∉ before := fun hold =>
    (List.nodup_append.mp hnodup).2.2 op hold op (List.mem_singleton_self op) rfl
  rw [List.idxOf_append_of_notMem hnew, List.idxOf_cons_self, Nat.add_zero]
  have hlt := List.idxOf_lt_length_of_mem huser
  rw [List.length_append, List.length_singleton] at hlt
  exact Nat.le_of_lt_succ hlt

/-- No operation waits for the one whose unit is made last. -/
theorem InOrder.not_awaits_last {before : List OpId} {op user : OpId}
    (h : InOrder program basic (before ++ [op])) (huser : user ∈ basic.ops) :
    ¬program.oracle.Awaits user op := by
  rintro ⟨dependences, dependence, hall, hmem, hsource, _⟩
  have hop : op ∈ basic.ops := (mem_unitOrder h.units).mp (by simp)
  have hlt := (h.waits user huser dependences hall dependence hmem).2 op hsource hop
  exact Nat.not_le.mpr hlt (idxOf_le_last h.nodup_order ((mem_unitOrder h.units).mpr huser))

/-- A block that a terminator ends can always be built. -/
theorem InOrder.exists_buildBlock (h : InOrder program basic order)
    (hends : ∃ op ∈ basic.ops, ∃ operation, program.ops.operation op = .ok operation ∧
      operation.terminator = true) (entrySlot : Nat) (now : Journaled σ) :
    ∃ g last, buildBlock program basic entrySlot now = .ok g last := by
  obtain ⟨op, hop, operation, hoperation, hterminator⟩ := hends
  refine (h.buildBlock_cases (List.ne_nil_of_mem hop) entrySlot now).1 ?_
  obtain ⟨ends, hops, horder, hknown⟩ := exists_ends_of_unitOrder h.units
  obtain ⟨pair, hpair, rfl⟩ := List.mem_map.mp (hops ▸ hop)
  obtain ⟨operation', hoperation', hflag⟩ := hknown pair hpair
  obtain rfl := Except.ok.inj (hoperation.symm.trans hoperation')
  have hsome : ends.filter (·.2) ≠ [] :=
    List.ne_nil_of_mem (List.mem_filter.mpr ⟨hpair, hflag.symm.trans hterminator⟩)
  obtain ⟨init, final, hfinal⟩ := (List.eq_nil_or_concat' _).resolve_left hsome
  obtain ⟨hmem, htrue⟩ := List.mem_filter.mp
    (hfinal ▸ List.mem_append_right init (List.mem_singleton_self final))
  obtain ⟨operation', hoperation', hflag'⟩ := hknown final hmem
  have hlast : order = (ends.filter (!·.2) ++ init).map Prod.fst ++ [final.1] := by
    rw [horder, hfinal]
    simp
  refine ⟨final.1, hops ▸ List.mem_map_of_mem hmem, operation', hoperation', ?_,
    Or.inr fun user huser => (hlast ▸ h).not_awaits_last huser⟩
  simp [Operation.isControl, hflag', htrue]

/-- A block of one result that nothing uses. -/
def singleResult : Program where
  ops := ⟨#[.data "iadd" 0 .trivial]⟩
  oracle :=
    { dependences := fun _ => some [.liveIn]
      stepsToFinish := fun _ => 1 }

/-- The result waits for the entry, so that no control unit is left for which the exit would. -/
theorem buildBlock_singleResult : InOrder singleResult ⟨0, [0]⟩ [0] ∧
    ∃ last, (buildBlock singleResult ⟨0, [0]⟩ 1 : Step PUnit Graph) ⟨⟨⟩, {}⟩ =
      .error (.error (.broken .floatingUnit "[2] is not constrained by block#0")) last := by
  refine ⟨⟨rfl, by decide, fun op _ => ⟨_, rfl⟩, fun op _ dependences hall dependence hmem => ?_⟩,
    Step.exists_of_failure? (by decide +kernel)⟩
  cases hall
  obtain rfl := List.mem_singleton.mp hmem
  exact ⟨rfl, fun source hsource => by cases hsource⟩

end Lowering

end SlotScheduling
