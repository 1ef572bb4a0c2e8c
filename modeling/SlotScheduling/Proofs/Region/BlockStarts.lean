import SlotScheduling.Proofs.Region.BlockOrder

/-!
# The starts of blocks

No unit of a region issues before its block is entered, if the operations of every lowered block
only wait for operations that are created before them.  This does not only concern the control
path: a unit that dangles issues with a control unit of its block, a frozen unit moves with its
block, and the exit waits for a control unit of the last block.
-/

namespace SlotScheduling

namespace Region

open SlotScheduling.Graph

variable {σ : Type} {program : Program} {blocks before after : List BasicBlock}
  {basic : BasicBlock} {entrySlot base top first slot : Nat} {options : SchedulingOptions}
  {threshold : Option Level} {whole built g : Graph} {entry id : UnitId} {unit : ScheduleUnit}

/-- Within one iteration, the operations of the block wait for none of its operations but those
that are created before them.  Terminators are created last. -/
def CreatedInOrder (program : Program) (basic : BasicBlock) : Prop :=
  ∀ order, Lowering.unitOrder program basic = .ok order → ∀ op ∈ basic.ops, ∀ source ∈ basic.ops,
    program.oracle.Awaits op source → order.idxOf source < order.idxOf op

theorem CreatedInOrder.acyclic (h : CreatedInOrder program basic)
    (hloops : isSelfLoop program basic = .ok false) : program.Acyclic basic := by
  have hops : ∀ op ∈ basic.ops, ∃ ends, (do
      return (op, (← program.ops.operation op).terminator) : Checked (OpId × Bool)) = .ok ends := by
    intro op hop
    obtain ⟨operation, hoperation, _⟩ := Checked.bind_eq_ok.mp (Checked.anyM_eq_ok_false hloops hop)
    exact ⟨(op, operation.terminator), by rw [hoperation]; rfl⟩
  obtain ⟨ends, hends⟩ := Checked.exists_mapM_eq_ok hops
  have horder : Lowering.unitOrder program basic =
      .ok (((ends.filter (!·.2)) ++ ends.filter (·.2)).map Prod.fst) := by
    rw [Lowering.unitOrder, hends]
    rfl
  exact Program.acyclic_of_rank _ fun hprecedes =>
    h _ horder _ hprecedes.user.1 _ hprecedes.producer.1 hprecedes.awaits

section

variable (h : Outcome σ program blocks entrySlot options threshold whole built g)

include h

theorem Outcome.exists_last : ∃ init basic, blocks = init ++ [basic] := by
  obtain ⟨_, _, _, _, _, hblocks, _⟩ := h.run
  exact (List.eq_nil_or_concat' blocks).resolve_left (by simp [hblocks])

/-- Every unit of a region is in one of its blocks. -/
theorem Outcome.exists_block (hunit : built.units[id]? = some unit) :
    ∃ before basic after, blocks = before ++ basic :: after ∧ unit.block = basic.id := by
  obtain ⟨first, rest, l, now, last, hblocks, hfold, rfl⟩ := h.run
  have hmem : ∃ basic ∈ blocks, unit.block = basic.id := by
    obtain ⟨closing, hcloses⟩ := h.closes
    by_cases hid : id < l.graph.units.size
    · obtain ⟨unit', hunit', hbare⟩ := hcloses.agrees.exists_unit hid hunit
      have hblock : unit.block = unit'.block := (congrArg ScheduleUnit.block hbare :)
      have hgrows := (foldlM_addBlock_eq_ok (growing_start _ _) hfold).2.1
      rcases block_of_grows hgrows hunit' with hroot | ⟨basic, hbasic, hroot⟩
      · exact ⟨first, hblocks ▸ List.mem_cons_self, hblock.trans hroot⟩
      · exact ⟨basic, hbasic, hblock.trans hroot⟩
    · obtain ⟨init, basic, hlast⟩ := h.exists_last
      have hexit := (h.closing hlast).1.exit
      have hlt := lt_size_of_getElem? hunit
      rw [hcloses.size] at hlt
      obtain rfl : id = l.graph.units.size :=
        Nat.le_antisymm (Nat.le_of_lt_succ hlt) (Nat.not_lt.mp hid)
      rw [hunit, Option.map_some] at hexit
      have hblock := congrArg ScheduleUnit.block (Option.some.inj hexit)
      exact ⟨basic, by simp [hlast], hblock⟩
  obtain ⟨basic, hmem, hblock⟩ := hmem
  obtain ⟨before, after, hsplit⟩ := List.append_of_mem hmem
  exact ⟨before, basic, after, hsplit, hblock⟩

/-- The exit of a region waits for a control unit of the last block. -/
theorem Outcome.exists_awaited (hunit : built.units[id]? = some unit)
    (hexit : built.exitRoot = some id) : ∃ (source : UnitId) (producer : ScheduleUnit)
      (bundle : EdgeBundle), built.exitRoot ≠ some source ∧ built.units[source]? = some producer ∧
      producer.control = true ∧ producer.block = unit.block ∧
      built.bundle? id source = some bundle ∧ bundle.edge.distance = 0 := by
  obtain ⟨init, basic, hlast⟩ := h.exists_last
  obtain ⟨hcloses, hverify⟩ := h.closing hlast
  obtain rfl : id = whole.units.size := Option.some.inj (hexit.symm.trans hcloses.exitRoot)
  have hbare := hcloses.exit
  rw [hunit, Option.map_some] at hbare
  have hbare := Option.some.inj hbare
  obtain ⟨source, producer, hdepends, hproducer, hblock⟩ :=
    Lowering.exists_source_of_verify hcloses.toWellFormed hverify hunit
      (congrArg ScheduleUnit.control hbare) (congrArg ScheduleUnit.slot hbare)
      (congrArg ScheduleUnit.fixedTiming hbare)
      ((congrArg (·.lead.isEntry) hbare).trans rfl)
  obtain ⟨bundle, hbundle⟩ := dependsOn_iff_bundle?.mp hdepends
  obtain ⟨hcontrol, hlocal⟩ := hcloses.waits hbundle
  obtain ⟨producer', hproducer', hflag⟩ :=
    (hcloses.agrees.isControl_iff hcontrol.lt_size).mpr hcontrol
  obtain rfl := Option.some.inj (hproducer.symm.trans hproducer')
  refine ⟨source, producer, bundle, ?_, hproducer, hflag, hblock, hbundle, hlocal⟩
  rw [hcloses.exitRoot]
  exact fun heq => Nat.ne_of_gt hcontrol.lt_size (Option.some.inj heq)

section

variable (hstands : Stands program before basic entrySlot base top entry built)
  (hforward : before = [] ∨ Forward program basic) (hunit : built.units[id]? = some unit)
  (hblock : unit.block = basic.id) (hfirst : g.slot? entry = some first)
  (hslot : g.slot? id = some slot)

include hstands hforward hunit hblock hfirst hslot

/-- A control unit of a block, the exit among them, issues at or after the start of the block. -/
theorem Outcome.start_le_control (hcontrol : unit.control = true) : first ≤ slot := by
  have hwithin : ∀ {id : UnitId} {unit : ScheduleUnit} {slot : Nat},
      built.units[id]? = some unit → unit.control = true → unit.block = basic.id →
      built.exitRoot ≠ some id → g.slot? id = some slot → first ≤ slot := by
    intro id unit slot hunit hcontrol hblock hexit hslot
    rcases hstands.within hunit hblock hexit with rfl | ⟨hbase, htop⟩
    · exact Nat.le_of_eq (Option.some.inj (hfirst.symm.trans hslot))
    · exact h.start_le hstands hforward hbase htop ⟨unit, hunit, hcontrol⟩ hfirst hslot
  by_cases hexit : built.exitRoot = some id
  · obtain ⟨source, producer, bundle, hsource, hproducer, hflag, hsame, hbundle, hlocal⟩ :=
      h.exists_awaited hunit hexit
    obtain ⟨slot', hslot'⟩ := h.settled.placed (lt_size_of_getElem? hproducer)
    exact Nat.le_trans (hwithin hproducer hflag (hsame.trans hblock) hsource hslot')
      (h.settled.last hexit hbundle hlocal ⟨producer, hproducer, hflag⟩ hslot' hslot)
  · exact hwithin hunit hcontrol hblock hexit hslot

/-- A unit of the data path issues at or after the start of its block. -/
theorem Outcome.start_le_data (hdata : unit.control = false) : first ≤ slot := by
  have hisData : built.IsData id := ⟨unit, hunit, hdata⟩
  obtain ⟨closing, hcloses⟩ := h.closes
  have hexit : built.exitRoot ≠ some id := by
    rw [hcloses.exitRoot]
    intro heq
    exact (Option.some.inj heq ▸ hcloses.isControl_exit).not_isData hisData
  have hne : id ≠ entry := by
    rintro rfl
    exact hstands.control.not_isData hisData
  obtain ⟨hbase, htop⟩ := (hstands.within hunit hblock hexit).resolve_left hne
  cases hstands.opens with
  | @merged _ _ done anchor hsub hdone hembeds hentry htop' =>
      subst hentry htop'
      obtain ⟨old, hmoves, rfl⟩ := exists_relocate anchor hbase
      have hlt : old < done.exit := Nat.lt_of_not_le fun hle => Nat.not_le.mpr htop
        (relocate_le (Or.inr (hdone.last ▸ Nat.succ_ne_zero _)) hle)
      exact h.settled.le_of_embeds hembeds hdone hsub hstands.closed hstands.control hfirst hmoves
        hlt hslot
  | lowered _ _ hparts _ =>
      by_cases hneeded : g.IsNeeded id
      · exact h.settled.started hunit hdata (hparts hbase htop hunit).unfrozen hneeded
          (hblock ▸ hstands.holder) hstands.control hfirst hslot
      · obtain ⟨other, unit', hunit', hcontrol, hsame, hslots⟩ :=
          h.settled.dangling hunit hdata hneeded
        exact h.start_le_control hstands hforward hunit' (hsame.trans hblock) hfirst
          (hslots ▸ hslot) hcontrol

end

end

end Region

open SlotScheduling.Graph

/-- In the schedule of a region, every unit issues at or after the start of its block. -/
theorem units_startWithBlocks {σ : Type} {program : Program} {blocks : List BasicBlock}
    {entrySlot : Nat} {options : SchedulingOptions} {now last : Journaled σ} {g : Graph}
    {schedule : Schedule}
    (h : Region.schedule program blocks entrySlot options now = .ok (g, schedule) last)
    (hids : (blocks.map (·.id)).Nodup)
    (horder : ∀ basic ∈ blocks, Region.isSelfLoop program basic = .ok false →
      Region.CreatedInOrder program basic)
    {id : UnitId} {unit : ScheduleUnit} (hunit : g.units[id]? = some unit) :
    ∃ first slot, g.startSlot unit.block = .ok (some first) ∧ unit.slot = some slot ∧
      first ≤ slot := by
  obtain ⟨⟨whole, built, houtcome⟩, _⟩ := Region.outcome_of_eq_ok h
  obtain ⟨unit', hunit', hbody⟩ := exists_of_body_eq houtcome.settled.body hunit
  obtain ⟨before, basic, after, hblocks, hblock⟩ := houtcome.exists_block hunit'
  obtain ⟨base, top, entry, hstands⟩ := houtcome.exists_stands hids hblocks
  obtain ⟨first, hstart, hfirst, _, _⟩ := houtcome.exists_start_slot hstands
  obtain ⟨slot, hslot⟩ := houtcome.settled.placed (lt_size_of_getElem? hunit')
  have hforward : Region.Forward program basic := by
    cases hstands.opens with
    | merged hloops _ _ _ _ _ => exact Or.inl hloops
    | lowered hloops _ _ _ =>
        exact Or.inr ((horder basic (by simp [hblocks]) hloops).acyclic hloops)
  refine ⟨first, slot, ?_, (slot?_eq hunit).symm.trans hslot, ?_⟩
  · rw [ScheduleUnit.block_of_body_eq hbody, hblock, hstart]
  · cases hcontrol : unit'.control with
    | true =>
        exact houtcome.start_le_control hstands (Or.inr hforward) hunit' hblock hfirst hslot
          hcontrol
    | false =>
        exact houtcome.start_le_data hstands (Or.inr hforward) hunit' hblock hfirst hslot hcontrol

theorem units_startWithBlocks_accessAround :
    ∃ g schedule last, (Region.schedule accessAround
        [⟨5, [0, 1]⟩, ⟨7, [2, 3, 4, 5, 6]⟩, ⟨9, [7, 8]⟩] 3 {} : Step PUnit (Graph × Schedule))
          ⟨⟨⟩, {}⟩ = .ok (g, schedule) last ∧ 9 < g.units.size ∧
      ∀ (id : UnitId) (unit : ScheduleUnit), g.units[id]? = some unit → ∃ first slot,
        g.startSlot unit.block = .ok (some first) ∧ unit.slot = some slot ∧ first ≤ slot := by
  have hsucceeds : (Region.schedule accessAround
      [⟨5, [0, 1]⟩, ⟨7, [2, 3, 4, 5, 6]⟩, ⟨9, [7, 8]⟩] 3 {} : Step PUnit
        (Graph × Schedule)).succeeds ⟨⟨⟩, {}⟩ (fun result => decide (9 < result.1.units.size)) =
          true := by
    decide +kernel
  obtain ⟨⟨g, schedule⟩, last, hrun, htest⟩ := Step.exists_of_succeeds hsucceeds
  refine ⟨g, schedule, last, hrun, of_decide_eq_true htest, fun id unit hunit => ?_⟩
  refine units_startWithBlocks hrun (by simp) (fun basic hbasic hloops order horder => ?_) hunit
  intro op hop source hsource hawaits
  obtain ⟨dependences, dependence, hall, hmem, hproducer, -⟩ := hawaits
  have hcases : basic = ⟨5, [0, 1]⟩ ∨ basic = ⟨7, [2, 3, 4, 5, 6]⟩ ∨ basic = ⟨9, [7, 8]⟩ := by
    simpa using hbasic
  rcases hcases with rfl | rfl | rfl
  · cases horder
    rcases List.mem_pair.mp hop with rfl | rfl
    · cases hall
      cases hmem
    · cases hall
      obtain rfl := List.mem_singleton.mp hmem
      cases hproducer
      decide
  · -- The loop is not lowered.
    cases hloops
  · cases horder
    rcases List.mem_pair.mp hop with rfl | rfl
    · cases hall
      obtain rfl := List.mem_singleton.mp hmem
      cases hproducer
      simp at hsource
    · cases hall
      rcases List.mem_pair.mp hmem with rfl | rfl
      · cases hproducer
        decide
      · cases hproducer
        simp at hsource

end SlotScheduling
