import Mathlib.Order.WellFoundedSet
import SlotScheduling.Proofs.Region.Chained

/-!
# The order of blocks

In the schedule of a region a block starts no earlier than the terminator of the block
before it.  Every control operation of a block issues at or after the start of its block if
the block moves as a whole, or if its control operations wait for each other in no cycle.
Behind a block without a terminator the next one waits for nothing: it can start first.
-/

namespace SlotScheduling

/-! ## Operations in a cycle -/

namespace Program

variable {program : Program} {basic : BasicBlock}

/-- The operation goes to the control path. -/
def IsControl (program : Program) (op : OpId) : Prop :=
  ∃ operation, program.ops.operation op = .ok operation ∧ operation.isControl = true

/-- Within one iteration, a control operation of the block waits for another one. -/
structure Precedes (program : Program) (basic : BasicBlock) (source op : OpId) : Prop where
  awaits : program.oracle.Awaits op source
  user : op ∈ basic.ops ∧ program.IsControl op
  producer : source ∈ basic.ops ∧ program.IsControl source

/-- Within one iteration, no control operation of the block waits for itself over others. -/
def Acyclic (program : Program) (basic : BasicBlock) : Prop :=
  ∀ op, ¬Relation.TransGen (program.Precedes basic) op op

theorem Acyclic.wellFounded (h : program.Acyclic basic) :
    WellFounded (program.Precedes basic) := by
  let within (first second : { op // op ∈ basic.ops }) : Prop :=
    Relation.TransGen (program.Precedes basic) first.1 second.1
  have htrans : IsTrans _ within := ⟨fun _ _ _ => Relation.TransGen.trans⟩
  have hirrefl : Std.Irrefl within := ⟨fun op => h op.1⟩
  have hwell : WellFounded within := Finite.wellFounded_of_trans_of_irrefl within
  have hacc : ∀ op : { op // op ∈ basic.ops }, Acc (program.Precedes basic) op.1 := by
    intro op
    induction op using hwell.induction with
    | _ op ih =>
        refine Acc.intro _ fun source hprecedes => ?_
        exact ih ⟨source, hprecedes.producer.1⟩ (.single hprecedes)
  refine ⟨fun op => Acc.intro _ fun source hprecedes => ?_⟩
  exact hacc ⟨source, hprecedes.producer.1⟩

/-- What a rank orders has no cycle. -/
theorem acyclic_of_rank (rank : OpId → Nat)
    (h : ∀ {source op}, program.Precedes basic source op → rank source < rank op) :
    program.Acyclic basic := by
  intro op hcycle
  have hrank : ∀ {source op}, Relation.TransGen (program.Precedes basic) source op →
      rank source < rank op := by
    intro source op hpath
    induction hpath with
    | single hprecedes => exact h hprecedes
    | tail _ hprecedes ih => exact Nat.lt_trans ih (h hprecedes)
  exact Nat.lt_irrefl _ (hrank hcycle)

end Program

/-! ## Operations behind their entry -/

theorem ScheduleUnit.PartOf.isControl {program : Program} {basic : BasicBlock} {unit : ScheduleUnit}
    (h : unit.PartOf program basic) {op : OpId} (hlead : unit.lead = .op op)
    (hcontrol : unit.control = true) : op ∈ basic.ops ∧ program.IsControl op := by
  rcases h.lead with hentry | ⟨op', hop', hlead', operation, hoperation, hserves⟩
  · cases hlead.symm.trans hentry
  · cases hlead.symm.trans hlead'
    exact ⟨hop', operation, hoperation, hserves.2.1.symm.trans hcontrol⟩

namespace Graph

variable {program : Program} {basic : BasicBlock} {built g : Graph} {target source id : UnitId}
  {entry : UnitId} {base top first slot s t entrySlot : Nat}

theorem Settled.le_of_honours (h : Settled built g) (hexit : built.exitRoot ≠ some target)
    (hhonours : built.Honours target source 0) (htarget : built.IsControl target)
    (hsource : built.IsControl source ∨ g.IsNeeded source) (hs : g.slot? source = some s)
    (ht : g.slot? target = some t) : s ≤ t := by
  obtain ⟨bundle, hbundle, hzero, _⟩ := hhonours
  have hmet := (h.met hexit hbundle hzero (Or.inl htarget) (hsource.imp_right Or.inl) hs ht).le
  omega

/-- Operations that wait for each other in no cycle issue at or after their entry. -/
theorem Settled.le_of_anchors (h : Settled built g)
    (hanchors : Lowering.Anchors program basic base top entry built)
    (hparts : ∀ {id : UnitId} {unit : ScheduleUnit}, base ≤ id → id < top →
      built.units[id]? = some unit → unit.Fresh program basic)
    (hholder : built.holder? (.entry basic.id) = some entry) (hcontrol : built.IsControl entry)
    (hclosed : ∀ exit, built.exitRoot = some exit → top ≤ exit)
    (hacyclic : program.Acyclic basic) (hfirst : g.slot? entry = some first) {op : OpId}
    (hbase : base ≤ id) (htop : id < top) (hleads : built.Leads (.op op) id)
    (hid : built.IsControl id) (hslot : g.slot? id = some slot) : first ≤ slot := by
  have hopen : ∀ {id}, id < top → built.exitRoot ≠ some id := fun hlt hexit =>
    Nat.not_lt.mpr (hclosed _ hexit) hlt
  have hcontrols : ∀ {op id}, base ≤ id → id < top → built.Leads (.op op) id →
      built.IsControl id → op ∈ basic.ops ∧ program.IsControl op := by
    rintro op id hbase htop ⟨unit, hunit, hlead⟩ ⟨unit', hunit', hcontrol⟩
    obtain rfl := Option.some.inj (hunit.symm.trans hunit')
    exact (hparts hbase htop hunit).isControl hlead hcontrol
  -- By induction on what the operations of the control path wait for.
  induction op using hacyclic.wellFounded.induction generalizing id slot with
  | _ op ih =>
      obtain ⟨source, hhonours, hcases⟩ := hanchors hbase htop hleads
      rcases hcases with rfl | ⟨hbase', htop', s, hs, hleads', hawaits⟩
      · exact h.le_of_honours (hopen htop) hhonours hid (Or.inl hcontrol) hfirst hslot
      obtain ⟨slot', hslot'⟩ := h.placed hleads'.lt_size
      rcases isControl_or_isData hleads'.lt_size with hsource | hsource
      · have hprecedes : program.Precedes basic s op :=
          ⟨hawaits, hcontrols hbase htop hleads hid, hcontrols hbase' htop' hleads' hsource⟩
        exact Nat.le_trans (ih s hprecedes hbase' htop' hleads' hsource hslot')
          (h.le_of_honours (hopen htop) hhonours hid (Or.inl hsource) hslot' hslot)
      · -- A data-path unit that a control unit needs is placed behind the entry of its block.
        obtain ⟨consumer, hconsumer, hflag⟩ := hid
        obtain ⟨producer, hproducer, hdata⟩ := hsource
        have hfresh := hparts hbase' htop' hproducer
        have hbundle := hhonours.choose_spec.1
        have hneeded : g.IsNeeded source :=
          h.sources hconsumer hflag (hopen htop) hproducer hdata hbundle
            (hfresh.block.trans (hparts hbase htop hconsumer).block.symm)
        refine Nat.le_trans (h.started hproducer hdata hfresh.unfrozen hneeded
          (hfresh.block ▸ hholder) hcontrol hfirst hslot') ?_
        exact h.le_of_honours (hopen htop) hhonours ⟨consumer, hconsumer, hflag⟩
          (Or.inr hneeded) hslot' hslot

theorem startSlot_eq_ok {block : BlockId} (hholder : g.holder? (.entry block) = some entry)
    (hfirst : g.slot? entry = some first) : g.startSlot block = .ok (some first) := by
  obtain ⟨unit, hunit, hslot⟩ := Option.bind_eq_some_iff.mp hfirst
  simp [startSlot, hholder, unit_eq_ok.mpr hunit, hslot, pure, Except.pure]

end Graph

/-! ## Regions -/

namespace Region

open SlotScheduling.Graph

variable {σ : Type} {program : Program} {blocks before after : List BasicBlock}
  {basic : BasicBlock} {entrySlot base top : Nat} {options : SchedulingOptions}
  {threshold : Option Level} {whole built g : Graph} {entry : UnitId}

/-- The block is scheduled on its own, or its control operations wait for each other in no
cycle. -/
def Forward (program : Program) (basic : BasicBlock) : Prop :=
  isSelfLoop program basic = .ok true ∨ program.Acyclic basic

section

variable (h : Outcome σ program blocks entrySlot options threshold whole built g)

include h

theorem Outcome.entrySlot_eq : built.entrySlot = entrySlot := by
  obtain ⟨first, _, l, _, _, _, hfold, rfl⟩ := h.run
  obtain ⟨_, hcloses⟩ := h.closes
  obtain ⟨_, hgrows, _⟩ :=
    foldlM_addBlock_eq_ok (l := Lowering.start first.id entrySlot) (growing_start _ _) hfold
  have hsame := congrArg (fun rest => rest.2.1) hcloses.surroundings
  exact hsame.trans hgrows.start.2

theorem Outcome.exists_start_slot
    (hstands : Stands program before basic entrySlot base top entry built) :
    ∃ first, g.startSlot basic.id = .ok (some first) ∧ g.slot? entry = some first ∧
      entrySlot ≤ first ∧ (before = [] → first = entrySlot) := by
  have hcontrol := (isControl_iff_of_body_eq h.settled.body).mpr hstands.control
  obtain ⟨first, hfirst, hle, _⟩ := h.settled.path entry hcontrol
  have hholders := congrArg (fun g => Graph.holder? g (.entry basic.id)) h.settled.body
  refine ⟨first, startSlot_eq_ok (Eq.trans hholders hstands.holder) hfirst, hfirst,
    h.entrySlot_eq ▸ hle, fun hnil => ?_⟩
  have hroot := h.settled.entry
  rw [← hstands.root hnil, hfirst, h.entrySlot_eq] at hroot
  exact Option.some.inj hroot

/-- The control units of a block issue at or after its start. -/
theorem Outcome.start_le (hstands : Stands program before basic entrySlot base top entry built)
    (hforward : before = [] ∨ Forward program basic) {id : UnitId} {first slot : Nat}
    (hbase : base ≤ id) (htop : id < top) (hid : built.IsControl id)
    (hfirst : g.slot? entry = some first) (hslot : g.slot? id = some slot) : first ≤ slot := by
  by_cases hnil : before = []
  · obtain ⟨first', _, hfirst', _, hroot⟩ := h.exists_start_slot hstands
    obtain rfl := Option.some.inj (hfirst.symm.trans hfirst')
    obtain ⟨slot', hslot', hle, _⟩ :=
      h.settled.path id ((isControl_iff_of_body_eq h.settled.body).mpr hid)
    obtain rfl := Option.some.inj (hslot.symm.trans hslot')
    rw [hroot hnil, ← h.entrySlot_eq]
    exact hle
  · cases hstands.opens with
    | @merged _ _ done anchor hsub hdone hembeds hentry htop' =>
        subst hentry htop'
        obtain ⟨old, hmoves, rfl⟩ := exists_relocate anchor hbase
        have hlt : old < done.exit := Nat.lt_of_not_le fun hle => Nat.not_le.mpr htop
          (relocate_le (Or.inr (hdone.last ▸ Nat.succ_ne_zero _)) hle)
        exact h.settled.le_of_embeds hembeds hdone hsub hstands.closed hstands.control hfirst
          hmoves hlt hslot
    | lowered hloops hanchors hparts hentry =>
        have hacyclic : program.Acyclic basic := by
          rcases hforward.resolve_left hnil with hloop | hacyclic
          · cases hloop.symm.trans hloops
          · exact hacyclic
        have hunit := Array.getElem?_eq_getElem hid.lt_size
        rcases (hparts hbase htop hunit).lead with hlead | ⟨op, _, hlead, _⟩
        · obtain rfl := hentry ⟨_, hunit, hlead⟩ hbase htop
          exact Nat.le_of_eq (Option.some.inj (hfirst.symm.trans hslot))
        · exact h.settled.le_of_anchors hanchors hparts hstands.holder hstands.control
            hstands.closed hacyclic hfirst hbase htop ⟨_, hunit, hlead⟩ hid hslot

end

end Region

open SlotScheduling.Graph

/-- A block starts at or after the terminator of the block before it, and in this way at or
after its start. -/
theorem blocks_startInOrder {σ : Type} {program : Program} {blocks before after : List BasicBlock}
    {basic next : BasicBlock} {entrySlot : Nat} {options : SchedulingOptions}
    {now last : Journaled σ} {g : Graph} {schedule : Schedule}
    (h : Region.schedule program blocks entrySlot options now = .ok (g, schedule) last)
    (hids : (blocks.map (·.id)).Nodup) (hblocks : blocks = before ++ basic :: next :: after) :
    ∃ first second, g.startSlot basic.id = .ok (some first) ∧
      g.startSlot next.id = .ok (some second) ∧ entrySlot ≤ second ∧
      (before = [] → first = entrySlot) ∧
      (∀ terminator, g.terminator? basic.id = some terminator →
        ∃ slot, g.slot? terminator = some slot ∧ slot ≤ second) ∧
      ((g.terminator? basic.id).isSome → Region.Forward program basic → first ≤ second) := by
  obtain ⟨⟨whole, built, houtcome⟩, _⟩ := Region.outcome_of_eq_ok h
  obtain ⟨base, top, entry, hstands⟩ := houtcome.exists_stands hids hblocks
  have hblocks' : blocks = (before ++ [basic]) ++ next :: after := by simp [hblocks]
  obtain ⟨_, _, entry', hstands'⟩ := houtcome.exists_stands hids hblocks'
  obtain ⟨first, hstart, hfirst, _, hroot⟩ := houtcome.exists_start_slot hstands
  obtain ⟨second, hstart', hsecond, hle, _⟩ := houtcome.exists_start_slot hstands'
  have hterminators : g.terminator? = built.terminator? := by
    have hterminators := congrArg Graph.terminator? houtcome.settled.body
    exact hterminators
  have hends : ∀ {terminator}, g.terminator? basic.id = some terminator →
      ∃ slot, g.slot? terminator = some slot ∧ slot ≤ second ∧
        (Region.Forward program basic → first ≤ slot) := by
    intro terminator hend
    rw [hterminators] at hend
    obtain ⟨hbase, htop, hcontrol⟩ := hstands.ends hend
    obtain ⟨slot, hslot⟩ := houtcome.settled.placed hcontrol.lt_size
    have hexit : built.exitRoot ≠ some entry' := fun hexit =>
      Nat.not_lt.mpr (hstands'.closed _ hexit) hstands'.lt
    exact ⟨slot, hslot, houtcome.settled.le_of_honours hexit (hstands'.chained rfl hend)
      hstands'.control (Or.inl hcontrol) hslot hsecond,
      fun hforward => houtcome.start_le hstands (Or.inr hforward) hbase htop hcontrol hfirst hslot⟩
  refine ⟨first, second, hstart, hstart', hle, hroot, fun terminator hend => ?_,
    fun hsome hforward => ?_⟩
  · obtain ⟨slot, hslot, hlater, _⟩ := hends hend
    exact ⟨slot, hslot, hlater⟩
  · obtain ⟨terminator, hend⟩ := Option.isSome_iff_exists.mp hsome
    obtain ⟨slot, _, hlater, hfirst⟩ := hends hend
    exact Nat.le_trans (hfirst hforward) hlater

theorem blocks_startInOrder_accessAround :
    ∃ g schedule last first second third, (Region.schedule accessAround
        [⟨5, [0, 1]⟩, ⟨7, [2, 3, 4, 5, 6]⟩, ⟨9, [7, 8]⟩] 3 {} : Step PUnit (Graph × Schedule))
          ⟨⟨⟩, {}⟩ = .ok (g, schedule) last ∧
      g.startSlot 5 = .ok (some first) ∧ g.startSlot 7 = .ok (some second) ∧
      g.startSlot 9 = .ok (some third) ∧ first = 3 ∧ first ≤ second ∧ second ≤ third := by
  have hsucceeds : (Region.schedule accessAround
      [⟨5, [0, 1]⟩, ⟨7, [2, 3, 4, 5, 6]⟩, ⟨9, [7, 8]⟩] 3 {} : Step PUnit
        (Graph × Schedule)).succeeds ⟨⟨⟩, {}⟩ (fun result =>
          (result.1.terminator? 5).isSome && (result.1.terminator? 7).isSome) = true := by
    decide +kernel
  obtain ⟨⟨g, schedule⟩, last, hrun, htest⟩ := Step.exists_of_succeeds hsucceeds
  rw [Bool.and_eq_true] at htest
  have hacyclic : accessAround.Acyclic ⟨5, [0, 1]⟩ := by
    refine Program.acyclic_of_rank id fun {source op} hprecedes => ?_
    obtain ⟨⟨dependences, dependence, hall, hmem, hsource, _⟩, ⟨hop, _⟩, _⟩ := hprecedes
    rcases List.mem_pair.mp hop with rfl | rfl
    · cases hall
      cases hmem
    · cases hall
      obtain rfl := List.mem_singleton.mp hmem
      cases hsource
      exact Nat.one_pos
  have hblocks : ([⟨5, [0, 1]⟩, ⟨7, [2, 3, 4, 5, 6]⟩, ⟨9, [7, 8]⟩] : List BasicBlock) =
      [] ++ ⟨5, [0, 1]⟩ :: ⟨7, [2, 3, 4, 5, 6]⟩ :: [⟨9, [7, 8]⟩] := rfl
  have hblocks' : ([⟨5, [0, 1]⟩, ⟨7, [2, 3, 4, 5, 6]⟩, ⟨9, [7, 8]⟩] : List BasicBlock) =
      [⟨5, [0, 1]⟩] ++ ⟨7, [2, 3, 4, 5, 6]⟩ :: ⟨9, [7, 8]⟩ :: [] := rfl
  obtain ⟨first, second, hfirst, hsecond, _, hroot, _, hle⟩ :=
    blocks_startInOrder hrun (by simp) hblocks
  obtain ⟨second', third, hsecond', hthird, _, _, _, hle'⟩ :=
    blocks_startInOrder hrun (by simp) hblocks'
  cases hsecond.symm.trans hsecond'
  exact ⟨g, schedule, last, first, second, third, hrun, hfirst, hsecond, hthird, hroot rfl,
    hle htest.1 (Or.inr hacyclic), hle' htest.2 (Or.inl (by rfl))⟩

/-- Three blocks, the second one without a terminator. -/
def unendedBlock : Program where
  ops := ⟨#[.control "ldst" 0 .trivial, .branch 0 1, .control "ldst" 1 .trivial,
    .control "ldst" 2 .trivial]⟩
  oracle :=
    { dependences := fun op => if op = 1 then some [.value 0 5] else some [.liveIn]
      stepsToFinish := fun _ => 0 }

/-- Three blocks.  The operations of the second one, among them its terminator, wait for
each other, and so for nothing else. -/
def waitingPair : Program where
  ops := ⟨#[.control "ldst" 0 .trivial, .branch 0 1, .control "ldst" 1 .trivial, .branch 1 2,
    .control "ldst" 2 .trivial]⟩
  oracle :=
    { dependences := fun op =>
        if op = 1 then some [.value 0 5]
        else if op = 2 then some [.throughMemory 3 0]
        else if op = 3 then some [.throughMemory 2 0]
        else some [.liveIn]
      stepsToFinish := fun _ => 0 }

/-- The third block starts before the second one, which nothing keeps behind its entry. -/
theorem thirdBlock_startsFirst :
    (∃ g schedule last, (Region.schedule unendedBlock [⟨0, [0, 1]⟩, ⟨1, [2]⟩, ⟨2, [3]⟩] 1 {} :
        Step PUnit (Graph × Schedule)) ⟨⟨⟩, {}⟩ = .ok (g, schedule) last ∧
      g.startSlot 1 = .ok (some 6) ∧ g.startSlot 2 = .ok (some 1)) ∧
    ∃ g schedule last, (Region.schedule waitingPair [⟨0, [0, 1]⟩, ⟨1, [2, 3]⟩, ⟨2, [4]⟩] 1 {} :
        Step PUnit (Graph × Schedule)) ⟨⟨⟩, {}⟩ = .ok (g, schedule) last ∧
      (g.terminator? 1).isSome ∧ g.startSlot 1 = .ok (some 6) ∧ g.startSlot 2 = .ok (some 1) := by
  have hunended : (Region.schedule unendedBlock [⟨0, [0, 1]⟩, ⟨1, [2]⟩, ⟨2, [3]⟩] 1 {} :
      Step PUnit (Graph × Schedule)).succeeds ⟨⟨⟩, {}⟩ (fun result =>
        decide (result.1.startSlot 1 = .ok (some 6) ∧ result.1.startSlot 2 = .ok (some 1))) =
          true := by
    decide +kernel
  have hwaiting : (Region.schedule waitingPair [⟨0, [0, 1]⟩, ⟨1, [2, 3]⟩, ⟨2, [4]⟩] 1 {} :
      Step PUnit (Graph × Schedule)).succeeds ⟨⟨⟩, {}⟩ (fun result =>
        decide ((result.1.terminator? 1).isSome ∧ result.1.startSlot 1 = .ok (some 6) ∧
          result.1.startSlot 2 = .ok (some 1))) = true := by
    decide +kernel
  obtain ⟨⟨g, schedule⟩, last, hrun, htest⟩ := Step.exists_of_succeeds hunended
  obtain ⟨⟨g', schedule'⟩, last', hrun', htest'⟩ := Step.exists_of_succeeds hwaiting
  exact ⟨⟨g, schedule, last, hrun, of_decide_eq_true htest⟩,
    g', schedule', last', hrun', of_decide_eq_true htest'⟩

end SlotScheduling
