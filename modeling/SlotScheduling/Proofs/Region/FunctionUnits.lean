import SlotScheduling.Proofs.Region.BlockOrder

/-!
# Function units across blocks

Control operations of one block that occupy the same function unit have different slots in the
schedule of a region.  Those of different blocks are kept apart by the order of the blocks alone:
until the later block starts, the operation of the earlier one has the function unit for itself.
From then on nothing keeps the two apart: they can share the slot in which one block ends and the
next one starts.
-/

namespace SlotScheduling

/-- The operation goes to the control path and occupies the function unit. -/
def Program.Occupies (program : Program) (op : OpId) (funcUnit : FuncUnit) : Prop :=
  ∃ operation, program.ops.operation op = .ok operation ∧ operation.isControl = true ∧
    operation.funcUnit = funcUnit

namespace Region

open SlotScheduling.Graph

variable {σ : Type} {program : Program} {blocks before after : List BasicBlock}
  {basic basic' : BasicBlock} {op op' : OpId} {entrySlot : Nat} {options : SchedulingOptions}
  {threshold : Option Level} {whole built g : Graph} {funcUnit : FuncUnit}

theorem Distinct.nodup_ids (h : Distinct blocks) : (blocks.map (·.id)).Nodup :=
  List.pairwise_map.mpr (h.imp And.left)

theorem Distinct.eq_of_mem (h : Distinct blocks) (hbasic : basic ∈ blocks)
    (hbasic' : basic' ∈ blocks) (hop : op ∈ basic.ops) (hop' : op ∈ basic'.ops) :
    basic = basic' := by
  by_contra hne
  have hsymm : Std.Symm fun first second : BasicBlock =>
      first.id ≠ second.id ∧ first.ops.Disjoint second.ops :=
    ⟨fun _ _ hpair => ⟨hpair.1.symm, hpair.2.symm⟩⟩
  exact (List.Pairwise.forall h hbasic hbasic' hne).2 hop hop'

/-- A control unit of the region stands for an operation of a block. -/
structure Holds (program : Program) (built : Graph) (basic : BasicBlock) (op : OpId)
    (funcUnit : FuncUnit) (id : UnitId) : Prop where
  last : built.IsLast (.op op) id
  unit : ∃ unit, built.units[id]? = some unit ∧ unit.control = true ∧ unit.block = basic.id ∧
    unit.funcUnit = funcUnit

theorem Holds.isControl {id : UnitId} (h : Holds program built basic op funcUnit id) :
    built.IsControl id := by
  obtain ⟨unit, hunit, hcontrol, _⟩ := h.unit
  exact ⟨unit, hunit, hcontrol⟩

section

variable (h : Outcome σ program blocks entrySlot options threshold whole built g)

include h

theorem Outcome.exists_grows :
    ∃ first, Grows program blocks (Graph.start first entrySlot) whole := by
  obtain ⟨first, _, l, _, _, _, hfold, rfl⟩ := h.run
  exact ⟨first.id, (foldlM_addBlock_eq_ok (growing_start _ _) hfold).2.1⟩

/-- Every control operation of a region has its unit. -/
theorem Outcome.exists_holds (hdistinct : Distinct blocks) (hbasic : basic ∈ blocks)
    (hop : op ∈ basic.ops) (hoccupies : program.Occupies op funcUnit) :
    ∃ id, Holds program built basic op funcUnit id := by
  obtain ⟨first, hgrows⟩ := h.exists_grows
  obtain ⟨_, hcloses⟩ := h.closes
  obtain ⟨id, hid⟩ := hgrows.holder ⟨basic, hbasic, hop⟩
  have hlast := h.growing.held.holder hid
  obtain ⟨unit, hunit, hlead⟩ := hcloses.leads_op_iff.mpr hlast.leads
  obtain ⟨unit', hunit', hbare⟩ := hcloses.agrees.exists_unit hlast.leads.lt_size hunit
  have hbase : (Graph.start first entrySlot).units.size ≤ id := by
    refine Nat.not_lt.mp fun hlt => ?_
    obtain ⟨_, hentry⟩ := leads_start.mp ((hgrows.agrees.leads_iff hlt).mp hlast.leads)
    cases hentry
  obtain ⟨basic', hbasic', hpart'⟩ := hgrows.parts hbase hunit'
  have hpart : unit.PartOf program basic' := hpart'.of_bare_eq hbare
  rcases hpart.lead with hentry | ⟨op', hop', hlead', operation, hoperation, hserves⟩
  · cases hlead.symm.trans hentry
  · cases hlead.symm.trans hlead'
    obtain rfl := hdistinct.eq_of_mem hbasic hbasic' hop hop'
    obtain ⟨operation', hoperation', hcontrol, hfuncUnit⟩ := hoccupies
    obtain rfl := Except.ok.inj (hoperation.symm.trans hoperation')
    exact ⟨id, hlast.of_leads_iff hcloses.leads_op_iff, unit, hunit,
      hserves.2.1.trans hcontrol, hpart.block, hserves.1.trans hfuncUnit⟩

/-- Control operations of one block on one function unit have different slots. -/
theorem Outcome.ne_of_holds {id id' : UnitId} {s t : Nat} (hne : op ≠ op')
    (hholds : Holds program built basic op funcUnit id)
    (hholds' : Holds program built basic op' funcUnit id') (hshared : funcUnit.isTrivial = false)
    (hs : g.slot? id = some s) (ht : g.slot? id' = some t) : s ≠ t := by
  obtain ⟨unit, hunit, hcontrol, hblock, hfuncUnit⟩ := hholds.unit
  obtain ⟨unit', hunit', hcontrol', hblock', hfuncUnit'⟩ := hholds'.unit
  have hids : id ≠ id' := by
    rintro rfl
    cases hholds.last.leads.unique hholds'.last.leads
    exact hne rfl
  have hslots := h.settled.exclusive hids hunit hcontrol hunit' hcontrol'
    (hblock.trans hblock'.symm) (hfuncUnit.trans hfuncUnit'.symm) (hfuncUnit ▸ hshared)
  rintro rfl
  exact hslots (hs.trans ht.symm)

/-- A control operation issues at or after the start of its block. -/
theorem Outcome.start_le_of_holds (hdistinct : Distinct blocks)
    (hblocks : blocks = before ++ basic :: after)
    (hforward : before = [] ∨ Forward program basic) {id : UnitId}
    (hholds : Holds program built basic op funcUnit id) {slot : Nat}
    (hslot : g.slot? id = some slot) :
    ∃ start, g.startSlot basic.id = .ok (some start) ∧ start ≤ slot := by
  obtain ⟨base, top, entry, hstands⟩ := h.exists_stands hdistinct.nodup_ids hblocks
  obtain ⟨start, hstart, hfirst, hle, hroot⟩ := h.exists_start_slot hstands
  refine ⟨start, hstart, ?_⟩
  by_cases hnil : before = []
  · obtain ⟨slot', hslot', hlater, _⟩ :=
      h.settled.path id ((isControl_iff_of_body_eq h.settled.body).mpr hholds.isControl)
    obtain rfl := Option.some.inj (hslot.symm.trans hslot')
    rw [hroot hnil, ← h.entrySlot_eq]
    exact hlater
  · obtain ⟨unit, hunit, _, hblock, _⟩ := hholds.unit
    rcases hstands.within hunit hblock (h.exitRoot_ne hholds.last.leads) with rfl | ⟨hbase, htop⟩
    · exact Nat.le_of_eq (Option.some.inj (hfirst.symm.trans hslot))
    · exact h.start_le hstands hforward hbase htop hholds.isControl hfirst hslot

end

end Region

open SlotScheduling.Graph

/-- Two control operations of a region that occupy one function unit never share a slot if
they are in one block.  If they are in different blocks, they share none before the later
block starts. -/
theorem functionUnit_heldUntilStart {σ : Type} {program : Program} {blocks : List BasicBlock}
    {op op' : OpId} {funcUnit : FuncUnit} {entrySlot : Nat} {options : SchedulingOptions}
    {now last : Journaled σ} {g : Graph} {schedule : Schedule} (hdistinct : Region.Distinct blocks)
    (h : Region.schedule program blocks entrySlot options now = .ok (g, schedule) last)
    (hne : op ≠ op') (hop : program.Occupies op funcUnit) (hop' : program.Occupies op' funcUnit)
    (hshared : funcUnit.isTrivial = false) :
    (∀ basic ∈ blocks, op ∈ basic.ops → op' ∈ basic.ops →
      ∃ s t, schedule.slot? op = some s ∧ schedule.slot? op' = some t ∧ s ≠ t) ∧
    ∀ before basic after, blocks = before ++ basic :: after →
      (∃ earlier ∈ before, op ∈ earlier.ops) → op' ∈ basic.ops → Region.Forward program basic →
      ∃ s t start, schedule.slot? op = some s ∧ schedule.slot? op' = some t ∧
        g.startSlot basic.id = .ok (some start) ∧ start ≤ t ∧ (s < start → s ≠ t) := by
  obtain ⟨⟨whole, built, houtcome⟩, hreport⟩ := Region.outcome_of_eq_ok h
  refine ⟨fun basic hbasic hmem hmem' => ?_, fun before basic after hblocks hearlier hmem'
    hforward => ?_⟩
  · obtain ⟨id, hholds⟩ := houtcome.exists_holds hdistinct hbasic hmem hop
    obtain ⟨id', hholds'⟩ := houtcome.exists_holds hdistinct hbasic hmem' hop'
    obtain ⟨s, hs, hold⟩ := houtcome.exists_slot hreport hholds.last
    obtain ⟨t, ht, hold'⟩ := houtcome.exists_slot hreport hholds'.last
    exact ⟨s, t, hold, hold', houtcome.ne_of_holds hne hholds hholds' hshared hs ht⟩
  · obtain ⟨earlier, hearlier, hmem⟩ := hearlier
    have hbasic : basic ∈ blocks := hblocks ▸ List.mem_append_right _ List.mem_cons_self
    have hearlier : earlier ∈ blocks := hblocks ▸ List.mem_append_left _ hearlier
    obtain ⟨id, hholds⟩ := houtcome.exists_holds hdistinct hearlier hmem hop
    obtain ⟨id', hholds'⟩ := houtcome.exists_holds hdistinct hbasic hmem' hop'
    obtain ⟨s, hs, hold⟩ := houtcome.exists_slot hreport hholds.last
    obtain ⟨t, ht, hold'⟩ := houtcome.exists_slot hreport hholds'.last
    obtain ⟨start, hstart, hle⟩ :=
      houtcome.start_le_of_holds hdistinct hblocks (Or.inr hforward) hholds' ht
    exact ⟨s, t, start, hold, hold', hstart, hle, fun hlt => Nat.ne_of_lt (hlt.trans_le hle)⟩

theorem functionUnit_heldUntilStart_accessAround :
    ∃ g schedule last, (Region.schedule accessAround
        [⟨5, [0, 1]⟩, ⟨7, [2, 3, 4, 5, 6]⟩, ⟨9, [7, 8]⟩] 3 {} : Step PUnit (Graph × Schedule))
          ⟨⟨⟩, {}⟩ = .ok (g, schedule) last ∧
      (∃ s t, schedule.slot? 3 = some s ∧ schedule.slot? 5 = some t ∧ s ≠ t) ∧
      ∃ s t start, schedule.slot? 0 = some s ∧ schedule.slot? 3 = some t ∧
        g.startSlot 7 = .ok (some start) ∧ start ≤ t ∧ (s < start → s ≠ t) := by
  have hsucceeds : (Region.schedule accessAround
      [⟨5, [0, 1]⟩, ⟨7, [2, 3, 4, 5, 6]⟩, ⟨9, [7, 8]⟩] 3 {} : Step PUnit
        (Graph × Schedule)).succeeds ⟨⟨⟩, {}⟩ (fun _ => true) = true := by
    decide +kernel
  obtain ⟨⟨g, schedule⟩, last, hrun, _⟩ := Step.exists_of_succeeds hsucceeds
  have hdistinct : Region.Distinct [⟨5, [0, 1]⟩, ⟨7, [2, 3, 4, 5, 6]⟩, ⟨9, [7, 8]⟩] := by
    simp [Region.Distinct]
  have hoccupies : ∀ op ∈ [0, 3, 5], accessAround.Occupies op ⟨.memoryBus, 0⟩ := by
    simp only [List.forall_mem_cons, List.not_mem_nil, false_implies, implies_true, and_true]
    exact ⟨⟨_, rfl, rfl, rfl⟩, ⟨_, rfl, rfl, rfl⟩, ⟨_, rfl, rfl, rfl⟩⟩
  obtain ⟨hwithin, _⟩ := functionUnit_heldUntilStart hdistinct hrun
    (show (3 : OpId) ≠ 5 by decide) (hoccupies 3 (by simp)) (hoccupies 5 (by simp)) rfl
  obtain ⟨_, hacross⟩ := functionUnit_heldUntilStart hdistinct hrun
    (show (0 : OpId) ≠ 3 by decide) (hoccupies 0 (by simp)) (hoccupies 3 (by simp)) rfl
  exact ⟨g, schedule, last, hrun, hwithin _ (List.mem_cons_of_mem _ List.mem_cons_self) (by simp)
    (by simp), hacross [⟨5, [0, 1]⟩] ⟨7, [2, 3, 4, 5, 6]⟩ [⟨9, [7, 8]⟩] rfl (by simp) (by simp)
      (Or.inl (by rfl))⟩

/-- Two blocks with one multiplication each, on the same multiplier. -/
def sharedMultiplier : Program where
  ops := ⟨#[.control "mul" 0 ⟨.mult, 0⟩, .branch 0 1, .control "mul" 1 ⟨.mult, 0⟩]⟩
  oracle :=
    { dependences := fun _ => some [.liveIn]
      stepsToFinish := fun _ => 0 }

/-- The same with a late branch, behind which the operations of the second block wait for each
other and for nothing else. -/
def sharedMultiplierAhead : Program where
  ops := ⟨#[.control "mul" 0 ⟨.mult, 0⟩, .branch 0 1, .control "mul" 1 ⟨.mult, 0⟩, .branch 1 2]⟩
  oracle :=
    { dependences := fun op =>
        if op = 0 then some [.liveIn]
        else if op = 1 then some [.value 0 5]
        else if op = 2 then some [.throughMemory 3 0]
        else some [.throughMemory 2 0]
      stepsToFinish := fun _ => 0 }

/-- Two blocks multiply in the same slot: in the slot that they have in common, and before the
second one starts. -/
theorem multiplier_shared :
    (∃ g schedule last, (Region.schedule sharedMultiplier [⟨0, [0, 1]⟩, ⟨1, [2]⟩] 1 {} :
        Step PUnit (Graph × Schedule)) ⟨⟨⟩, {}⟩ = .ok (g, schedule) last ∧
      sharedMultiplier.Occupies 0 ⟨.mult, 0⟩ ∧ sharedMultiplier.Occupies 2 ⟨.mult, 0⟩ ∧
      schedule.slot? 0 = some 1 ∧ schedule.slot? 2 = some 1) ∧
    ∃ g schedule last, (Region.schedule sharedMultiplierAhead [⟨0, [0, 1]⟩, ⟨1, [2, 3]⟩] 1 {} :
        Step PUnit (Graph × Schedule)) ⟨⟨⟩, {}⟩ = .ok (g, schedule) last ∧
      sharedMultiplierAhead.Occupies 0 ⟨.mult, 0⟩ ∧ sharedMultiplierAhead.Occupies 2 ⟨.mult, 0⟩ ∧
      g.startSlot 1 = .ok (some 6) ∧ schedule.slot? 0 = some 1 ∧ schedule.slot? 2 = some 1 := by
  have hsucceeds : (Region.schedule sharedMultiplier [⟨0, [0, 1]⟩, ⟨1, [2]⟩] 1 {} : Step PUnit
      (Graph × Schedule)).succeeds ⟨⟨⟩, {}⟩ (fun result => decide (result.2.slot? 0 = some 1 ∧
        result.2.slot? 2 = some 1)) = true := by
    decide +kernel
  have hsucceeds' : (Region.schedule sharedMultiplierAhead [⟨0, [0, 1]⟩, ⟨1, [2, 3]⟩] 1 {} :
      Step PUnit (Graph × Schedule)).succeeds ⟨⟨⟩, {}⟩ (fun result =>
        decide (result.1.startSlot 1 = .ok (some 6) ∧ result.2.slot? 0 = some 1 ∧
          result.2.slot? 2 = some 1)) = true := by
    decide +kernel
  obtain ⟨⟨g, schedule⟩, last, hrun, htest⟩ := Step.exists_of_succeeds hsucceeds
  obtain ⟨⟨g', schedule'⟩, last', hrun', htest'⟩ := Step.exists_of_succeeds hsucceeds'
  exact ⟨⟨g, schedule, last, hrun, ⟨_, rfl, rfl, rfl⟩, ⟨_, rfl, rfl, rfl⟩,
      of_decide_eq_true htest⟩,
    g', schedule', last', hrun', ⟨_, rfl, rfl, rfl⟩, ⟨_, rfl, rfl, rfl⟩, of_decide_eq_true htest'⟩

end SlotScheduling
