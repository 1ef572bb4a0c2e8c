import SlotScheduling.Proofs.Region.FrozenLoops

/-!
# Legal region schedules

In the schedule of a region an operation waits for what the oracle records for it: for
the operations of its block, and for those of earlier blocks unless its own block loops
back to itself, in which case its graph was made without the other blocks.
-/

namespace SlotScheduling

/-- The oracle records that the operation waits for the source within one iteration. -/
def LatencyOracle.Orders (oracle : LatencyOracle) (op source : OpId) (latency : Nat) : Prop :=
  ∃ dependences dependence, oracle.dependences op = some dependences ∧
    dependence ∈ dependences ∧ dependence.source = some source ∧ dependence.distance = 0 ∧
      dependence.latency = latency

/-- What the oracle records of the two across iterations is shorter. -/
def LatencyOracle.CarriesLess (oracle : LatencyOracle) (op source : OpId) (latency : Nat) : Prop :=
  ∀ dependences, oracle.dependences op = some dependences → ∀ other ∈ dependences,
    other.source = some source → 0 < other.distance → other.latency < latency

/-- The operation is a loop move. -/
def Program.IsPhi (program : Program) (op : OpId) : Prop :=
  ∃ operation, program.ops.operation op = .ok operation ∧ operation.phi = true

namespace Graph

variable {program : Program} {basic : BasicBlock} {blocks : List BasicBlock}
  {op source : OpId} {entrySlot latency : Nat} {sub g g' built whole : Graph} {id : UnitId}

instance (g : Graph) (id : UnitId) : Decidable (g.IsControl id) :=
  inferInstanceAs (Decidable (∃ unit ∈ g.units[id]?, unit.control = true))

instance (g : Graph) (id : UnitId) : Decidable (g.IsData id) :=
  inferInstanceAs (Decidable (∃ unit ∈ g.units[id]?, unit.control = false))

/-- The unit that holds the operation is one of the control path, or does not dangle. -/
def Counts (g : Graph) (op : OpId) : Prop :=
  ∃ id ∈ g.holder? (.op op), g.IsControl id ∨ g.IsNeeded id

instance (g : Graph) (op : OpId) : Decidable (g.Counts op) :=
  inferInstanceAs (Decidable (∃ id ∈ g.holder? (.op op), g.IsControl id ∨ g.IsNeeded id))

/-- The unit that holds the operation is one of the data path. -/
def HoldsData (g : Graph) (op : OpId) : Prop :=
  ∃ id ∈ g.holder? (.op op), g.IsData id

instance (g : Graph) (op : OpId) : Decidable (g.HoldsData op) :=
  inferInstanceAs (Decidable (∃ id ∈ g.holder? (.op op), g.IsData id))

/-! ## Loops -/

/-- A loop on its own keeps what the oracle records of two of its operations. -/
theorem Alone.honours (h : Alone program basic entrySlot sub)
    (horders : program.oracle.Orders op source latency)
    (hcarried : program.oracle.CarriesLess op source latency) (hop : op ∈ basic.ops)
    {other : UnitId} (hid : sub.holder? (.op op) = some id)
    (hother : sub.holder? (.op source) = some other) : sub.Honours id other latency := by
  obtain ⟨dependences, dependence, hall, hmem, hsource, hzero, rfl⟩ := horders
  exact h.honoured hop hid dependence hall hmem hsource hzero hother (hcarried dependences hall)

theorem Alone.phi_eq_false (h : Alone program basic entrySlot sub) (hphi : ¬program.IsPhi op)
    (hleads : sub.Leads (.op op) id) {unit : ScheduleUnit} (hunit : sub.units[id]? = some unit) :
    unit.phi = false := by
  obtain ⟨_, _, hexit⟩ := h.of_leads_op hleads
  obtain ⟨unit', hunit', hlead⟩ := hleads
  obtain rfl := Option.some.inj (hunit.symm.trans hunit')
  rcases (h.parts hexit hunit).lead with hentry | ⟨op', _, hlead', operation, hoperation, hserves⟩
  · cases hentry.symm.trans hlead
  · cases hlead'.symm.trans hlead
    refine Bool.eq_false_iff.mpr fun htrue => hphi ⟨operation, hoperation, ?_⟩
    rw [← hserves.2.2, htrue]

/-- The schedule of a loop on its own meets what the oracle records within an iteration. -/
theorem Alone.meets {σ : Type} {options : SchedulingOptions} {now last : Journaled σ}
    (h : Alone program basic entrySlot sub)
    (hrun : (do
      let g ← Lowering.buildBlock program basic entrySlot
      scheduleApart options g : Step σ Graph) now = .ok sub last)
    (horders : program.oracle.Orders op source latency)
    (hcarried : program.oracle.CarriesLess op source latency) (hop : op ∈ basic.ops)
    (hphi : ¬program.IsPhi source) {other : UnitId} (hid : sub.holder? (.op op) = some id)
    (hother : sub.holder? (.op source) = some other) (hcounts : sub.Counts op) {s t : Nat}
    (hs : sub.slot? other = some s) (ht : sub.slot? id = some t) : s + latency ≤ t := by
  obtain ⟨bundle, hbundle, hzero, hle⟩ := h.honours horders hcarried hop hid hother
  obtain ⟨consumer, hconsumer, hdep⟩ := exists_of_bundle? hbundle
  have hcounts : consumer.control = true ∨ consumer.dangling = false := by
    obtain ⟨id', hid', hcounts⟩ := hcounts
    obtain rfl := Option.some.inj (hid.symm.trans hid')
    exact counts_of_getElem? hconsumer hcounts
  rw [slot?_eq hconsumer] at ht
  rcases exists_start hrun with ⟨_, hstart, hfinished⟩ |
    ⟨interval, _, hstart, _, hfinished⟩
  · obtain ⟨s', t', hs', ht', hgap⟩ :=
      (hstart.isStraightLine hfinished).ordered hconsumer hcounts hdep hzero
    obtain rfl := Option.some.inj (hs.symm.trans hs')
    obtain rfl := Option.some.inj (ht.symm.trans ht')
    exact Nat.le_trans (Nat.add_le_add_left hle s) hgap
  · obtain ⟨producer, hproducer, s', t', hs', ht', hgap⟩ :=
      (hstart.isPipelinedAt hfinished).ordered hconsumer hcounts hdep
    rw [slot?_eq hproducer] at hs
    obtain rfl := Option.some.inj (hs.symm.trans hs')
    obtain rfl := Option.some.inj (ht.symm.trans ht')
    have hnone := h.phi_eq_false hphi (h.held.holder hother).leads hproducer
    rw [hzero, hnone] at hgap
    simp at hgap
    omega

/-! ## Lowered blocks -/

theorem IsLast.of_leads_iff {instr : Instr} (h : g.IsLast instr id)
    (hleads : ∀ {id}, g'.Leads instr id ↔ g.Leads instr id) : g'.IsLast instr id :=
  ⟨hleads.mpr h.leads, fun hother => h.last (hleads.mp hother)⟩

/-- The graph has two operations whose order the oracle records. -/
structure HasOrder (g : Graph) (op source : OpId) (latency : Nat) (id other : UnitId) : Prop where
  user : g.IsLast (.op op) id
  producer : g.IsLast (.op source) other
  honours : g.Honours id other latency

/-- An order stays while a graph grows. -/
theorem HasOrder.mono {other : UnitId} (h : g.HasOrder op source latency id other)
    (hagrees : AgreesBelow g.units.size g g')
    (huser : ∀ {id}, g'.Leads (.op op) id ↔ g.Leads (.op op) id)
    (hproducer : ∀ {id}, g'.Leads (.op source) id ↔ g.Leads (.op source) id) :
    g'.HasOrder op source latency id other := by
  exact ⟨h.user.of_leads_iff huser, h.producer.of_leads_iff hproducer,
    h.honours.of_bundle?_eq (hagrees.edges h.user.leads.lt_size)⟩

end Graph

namespace Region

open SlotScheduling.Graph

variable {σ : Type} {program : Program} {blocks before after : List BasicBlock}
  {user : BasicBlock} {op source : OpId} {entrySlot latency : Nat} {options : SchedulingOptions}
  {threshold : Option Level} {whole built g : Graph}

/-- The operation counts in the graph that its block gets on its own. -/
def CountsAlone (program : Program) (basic : BasicBlock) (entrySlot : Nat)
    (options : SchedulingOptions) (now : Journaled σ) (op : OpId) : Prop :=
  ∃ sub alone last, scheduleBlock program basic entrySlot options now = .ok (sub, alone) last ∧
    sub.Counts op

theorem CountsAlone.of_eq_ok {sub : Graph} {now last : Journaled σ}
    (h : CountsAlone program user entrySlot options now op)
    (hrun : (do
      let g ← Lowering.buildBlock program user entrySlot
      scheduleApart options g : Step σ Graph) now = .ok sub last) : sub.Counts op := by
  obtain ⟨sub', alone, last', hblock, hcounts⟩ := h
  obtain ⟨built, now₁, hbuild, hblock⟩ := Step.bind_eq_ok.mp hblock
  obtain ⟨finished, now₂, hschedule, hblock⟩ := Step.bind_eq_ok.mp hblock
  obtain ⟨report, _, hblock⟩ := Step.lift_bind_eq_ok.mp hblock
  obtain ⟨heq, _⟩ := Step.pure_eq_ok.mp hblock
  cases heq
  have hagain := hrun.symm.trans (Step.bind_eq_ok.mpr ⟨built, now₁, hbuild, hschedule⟩)
  cases hagain
  exact hcounts

theorem Distinct.split (h : Distinct (before ++ user :: after)) :
    (∀ block ∈ before, block.ops.Disjoint user.ops) ∧
      (∀ block ∈ after, user.ops.Disjoint block.ops) ∧
        ∀ block ∈ before, ∀ later ∈ after, block.ops.Disjoint later.ops := by
  obtain ⟨_, hlater, hcross⟩ := List.pairwise_append.mp h
  exact ⟨fun block hblock => (hcross block hblock user List.mem_cons_self).2,
    fun block hblock => ((List.pairwise_cons.mp hlater).1 block hblock).2,
    fun block hblock later hlater => (hcross block hblock later (List.mem_cons_of_mem _ hlater)).2⟩

/-- A block that is lowered keeps what the oracle records of its operations and of those
that were there before. -/
theorem Outcome.exists_order
    (h : Outcome σ program blocks entrySlot options threshold whole built g)
    (hdistinct : Distinct blocks) (hblocks : blocks = before ++ user :: after)
    (hloop : isSelfLoop program user = .ok false)
    (hsource : ∃ producer ∈ before ++ [user], source ∈ producer.ops) (hop : op ∈ user.ops)
    (horders : program.oracle.Orders op source latency)
    (hcarried : program.oracle.CarriesLess op source latency) :
    ∃ id other, built.HasOrder op source latency id other ∧
      (source ∈ user.ops → ∀ {consumer producer}, built.units[id]? = some consumer →
        built.units[other]? = some producer → producer.block = consumer.block) := by
  subst hblocks
  obtain ⟨entry, g₁, g₂, hbefore, _, hadded, hafter⟩ := h.added rfl
  obtain ⟨_, hcloses⟩ := h.closes
  obtain ⟨hearlier, hlater, hcross⟩ := hdistinct.split
  cases hadded with
  | merged hloops _ _ _ _ => cases hloops.symm.trans hloop
  | lowered _ hlowers =>
      obtain ⟨id, hnew, hid⟩ := hlowers.holder hop
      obtain ⟨other, hother, hown⟩ : ∃ other, g₂.holder? (.op source) = some other ∧
          (source ∈ user.ops → g₁.units.size ≤ other) := by
        by_cases hown : source ∈ user.ops
        · obtain ⟨other, hle, hother⟩ := hlowers.holder hown
          exact ⟨other, hother, fun _ => hle⟩
        · obtain ⟨producer, hproducer, hsource⟩ := hsource
          have hproducer : producer ∈ before := by
            refine (List.mem_append.mp hproducer).resolve_right fun hmem => hown ?_
            exact List.mem_singleton.mp hmem ▸ hsource
          obtain ⟨other, hother⟩ := hbefore.holder ⟨producer, hproducer, hsource⟩
          exact ⟨other, (hlowers.others hown).trans hother, fun hmem => absurd hmem hown⟩
      have hafterOp : ∀ block ∈ after, op ∉ block.ops := fun block hblock =>
        hlater block hblock hop
      have hafterSource : ∀ block ∈ after, source ∉ block.ops := by
        intro block hblock hmem
        obtain ⟨producer, hproducer, hsource⟩ := hsource
        rcases List.mem_append.mp hproducer with hproducer | hproducer
        · exact hcross producer hproducer block hblock hsource hmem
        · exact hlater block hblock (List.mem_singleton.mp hproducer ▸ hsource) hmem
      obtain ⟨dependences, dependence, hall, hmem, hs, hzero, rfl⟩ := horders
      have horder : g₂.HasOrder op source dependence.latency id other :=
        ⟨hlowers.held.holder hid, hlowers.held.holder hother,
          hlowers.honoured hop hid dependence hall hmem hs hzero hother
            (hcarried dependences hall)⟩
      refine ⟨id, other, (horder.mono hafter.agrees (hafter.leads_op_iff hafterOp)
        (hafter.leads_op_iff hafterSource)).mono hcloses.agrees hcloses.leads_op_iff
          hcloses.leads_op_iff, fun hmem consumer producer hconsumer hproducer => ?_⟩
      have hblock : ∀ {x : UnitId} {unit : ScheduleUnit}, g₁.units.size ≤ x → x < g₂.units.size →
          built.units[x]? = some unit → unit.block = user.id := by
        intro x unit hle hlt hunit
        obtain ⟨unit', hunit', hbare⟩ :=
          (hafter.agrees.trans (hcloses.agrees.mono hafter.size)).exists_unit hlt hunit
        have hsame := congrArg ScheduleUnit.block hbare
        exact hsame.trans (hlowers.fresh hle hunit').block
      rw [hblock (hown hmem) horder.producer.leads.lt_size hproducer,
        hblock hnew horder.user.leads.lt_size hconsumer]

section

variable (h : Outcome σ program blocks entrySlot options threshold whole built g)

include h

/-- An operation is held by the last unit that was made for it. -/
theorem Outcome.isLast {id : UnitId} (hid : g.holder? (.op op) = some id) :
    built.IsLast (.op op) id := by
  obtain ⟨_, hcloses⟩ := h.closes
  have hholders := congrArg Graph.holders h.settled.body
  have hholders : g.holders = built.holders := hholders
  rw [holder?, hholders] at hid
  exact (hcloses.held h.growing.held).holder hid

theorem Outcome.counts {id : UnitId} (hcounts : g.Counts op) (hlast : built.IsLast (.op op) id) :
    built.IsControl id ∨ g.IsNeeded id := by
  obtain ⟨id', hid', hcounts⟩ := hcounts
  obtain rfl := (h.isLast hid').unique hlast
  exact hcounts.imp_left (isControl_iff_of_body_eq h.settled.body).mp

theorem Outcome.isData {id : UnitId} (hdata : g.HoldsData op) (hlast : built.IsLast (.op op) id) :
    built.IsData id := by
  obtain ⟨id', hid', hdata⟩ := hdata
  obtain rfl := (h.isLast hid').unique hlast
  exact (isData_iff_of_body_eq h.settled.body).mp hdata

/-- The schedule tells the slot of the unit that holds an operation. -/
theorem Outcome.exists_slot {schedule : Schedule} (hreport : Schedule.ofGraph g = .ok schedule)
    {id : UnitId} (hlast : built.IsLast (.op op) id) :
    ∃ slot, g.slot? id = some slot ∧ schedule.slot? op = some slot := by
  obtain ⟨slot, hslot⟩ := h.settled.placed hlast.leads.lt_size
  exact ⟨slot, hslot, slot?_ofGraph h.unfused hreport (hlast.of_leads_iff h.settled.leads_iff)
    hslot⟩

theorem Outcome.exitRoot_ne {id : UnitId} (hleads : built.Leads (.op op) id) :
    built.exitRoot ≠ some id := by
  obtain ⟨_, hcloses⟩ := h.closes
  rw [hcloses.exitRoot]
  rintro heq
  obtain rfl := Option.some.inj heq
  cases hleads.unique hcloses.leads_exit

/-- The schedule meets what the oracle records for the operations of a lowered block. -/
theorem Outcome.meets {schedule : Schedule} (hreport : Schedule.ofGraph g = .ok schedule)
    (hdistinct : Distinct blocks) (hblocks : blocks = before ++ user :: after)
    (hloop : isSelfLoop program user = .ok false)
    (hsource : ∃ producer ∈ before ++ [user], source ∈ producer.ops) (hop : op ∈ user.ops)
    (horders : program.oracle.Orders op source latency)
    (hcarried : program.oracle.CarriesLess op source latency) (hcounts : g.Counts op)
    (hneeded : source ∈ user.ops ∨ g.HoldsData op ∨ g.Counts source) :
    ∃ s t, schedule.slot? source = some s ∧ schedule.slot? op = some t ∧ s + latency ≤ t := by
  obtain ⟨id, other, horder, hsame⟩ :=
    h.exists_order hdistinct hblocks hloop hsource hop horders hcarried
  obtain ⟨bundle, hbundle, hzero, hle⟩ := horder.honours
  obtain ⟨t, ht, htold⟩ := h.exists_slot hreport horder.user
  obtain ⟨s, hs, hsold⟩ := h.exists_slot hreport horder.producer
  refine ⟨s, t, hsold, htold, ?_⟩
  have hexit := h.exitRoot_ne horder.user.leads
  have hlt := horder.user.leads.lt_size
  have hlt' := horder.producer.leads.lt_size
  have hproducer : built.IsControl other ∨ g.IsNeeded other ∨ built.IsData id := by
    rcases hneeded with hown | hdata | hproducer
    · rcases isControl_or_isData hlt with ⟨consumer, hconsumer, hcontrol⟩ | hdata
      · refine (isControl_or_isData hlt').imp_right fun ⟨producer, hproducer, hdata⟩ => ?_
        exact Or.inl (h.settled.sources hconsumer hcontrol hexit hproducer hdata hbundle
          (hsame hown hconsumer hproducer))
      · exact Or.inr (Or.inr hdata)
    · exact Or.inr (Or.inr (h.isData hdata horder.user))
    · exact (h.counts hproducer horder.producer).imp_right Or.inl
  have hmet := (h.settled.met hexit hbundle hzero (h.counts hcounts horder.user) hproducer hs
    ht).le
  omega

/-- The schedule meets what the oracle records for a loop that is part of the region. -/
theorem Outcome.meets_alone {now : Journaled σ} (hnow : now.journal.threshold = threshold)
    {schedule : Schedule} (hreport : Schedule.ofGraph g = .ok schedule)
    (hdistinct : Distinct blocks) (huser : user ∈ blocks)
    (hloop : isSelfLoop program user = .ok true) (hsource : source ∈ user.ops)
    (hop : op ∈ user.ops) (horders : program.oracle.Orders op source latency)
    (hcarried : program.oracle.CarriesLess op source latency)
    (hphi : ¬program.IsPhi source) (hcounts : CountsAlone program user entrySlot options now op) :
    ∃ s t, schedule.slot? source = some s ∧ schedule.slot? op = some t ∧ s + latency ≤ t := by
  obtain ⟨sub, done, base, anchor, hgets, halone, hdone, hhouses⟩ :=
    h.exists_houses hdistinct huser hloop
  obtain ⟨shift, hshift⟩ := h.exists_shift halone hdone hhouses hreport
  obtain ⟨id, hid⟩ := halone.holder hop
  obtain ⟨other, hother⟩ := halone.holder hsource
  obtain ⟨t, t', ht, htold, hmoved⟩ := hshift hop hid
  obtain ⟨s, s', hs, hsold, hmoved'⟩ := hshift hsource hother
  obtain ⟨last, hrun⟩ := hgets now hnow
  have hmeets :=
    halone.meets hrun horders hcarried hop hphi hid hother (hcounts.of_eq_ok hrun) hs ht
  exact ⟨s', t', hsold, htold, by omega⟩

theorem Outcome.exists_isSelfLoop (huser : user ∈ blocks) :
    ∃ loops, isSelfLoop program user = .ok loops := by
  obtain ⟨before, after, rfl⟩ := List.append_of_mem huser
  obtain ⟨_, _, _, _, _, hadded, _⟩ := h.added rfl
  cases hadded with
  | lowered hloop _ => exact ⟨false, hloop⟩
  | merged hloop _ _ _ _ => exact ⟨true, hloop⟩

end

/-- Where a region knows of an operation that another one waits for: within one block,
and in an earlier block unless the later one loops back to itself. -/
inductive Sees (program : Program) (blocks : List BasicBlock) : BasicBlock → BasicBlock → Prop
  | within {user : BasicBlock} (huser : user ∈ blocks) : Sees program blocks user user
  | across {before after : List BasicBlock} {user producer : BasicBlock}
      (hblocks : blocks = before ++ user :: after) (hproducer : producer ∈ before)
      (hloop : isSelfLoop program user = .ok false) : Sees program blocks user producer

end Region

/-- In the schedule of a region every operation that counts waits for what the oracle
records within an iteration, if what it records across iterations is shorter. -/
theorem regionDependence_met {σ : Type} {program : Program} {blocks : List BasicBlock}
    {user producer : BasicBlock} {op source : OpId} {entrySlot latency : Nat}
    {options : SchedulingOptions} {now last : Journaled σ} {g : Graph} {schedule : Schedule}
    (hdistinct : Region.Distinct blocks)
    (h : Region.schedule program blocks entrySlot options now = .ok (g, schedule) last)
    (hsees : Region.Sees program blocks user producer) (hop : op ∈ user.ops)
    (hsource : source ∈ producer.ops) (horders : program.oracle.Orders op source latency)
    (hcarried : program.oracle.CarriesLess op source latency)
    (hphi : ¬program.IsPhi source) (hcounts : g.Counts op)
    (halone : Region.isSelfLoop program user = .ok true →
      Region.CountsAlone program user entrySlot options now op)
    (hneeded : producer = user ∨ g.HoldsData op ∨ g.Counts source) :
    ∃ s t, schedule.slot? source = some s ∧ schedule.slot? op = some t ∧ s + latency ≤ t := by
  obtain ⟨⟨whole, built, houtcome⟩, hreport⟩ := Region.outcome_of_eq_ok h
  cases hsees with
  | across hblocks hproducer hloop =>
      refine houtcome.meets hreport hdistinct hblocks hloop
        ⟨producer, List.mem_append_left _ hproducer, hsource⟩ hop horders hcarried hcounts ?_
      rcases hneeded with rfl | hneeded
      · exact Or.inl hsource
      · exact Or.inr hneeded
  | within huser =>
      obtain ⟨loops, hloop⟩ := houtcome.exists_isSelfLoop huser
      cases loops with
      | true =>
          exact houtcome.meets_alone rfl hreport hdistinct huser hloop hsource hop horders
            hcarried hphi (halone hloop)
      | false =>
          obtain ⟨before, after, hblocks⟩ := List.append_of_mem huser
          exact houtcome.meets hreport hdistinct hblocks hloop
            ⟨user, List.mem_append_right _ (List.mem_singleton_self _), hsource⟩ hop horders
              hcarried hcounts (Or.inl hsource)

/-- Code before and behind a loop.  What comes last uses an access of the loop. -/
def accessAround : Program where
  ops := ⟨#[.control "ldst" 5 ⟨.memoryBus, 0⟩, .branch 5 7,
    { Operation.control "phi" 7 .trivial with phi := true }, .control "ldst" 7 ⟨.memoryBus, 0⟩,
    .data "add" 7 ⟨.addSub, 0⟩, .control "ldst" 7 ⟨.memoryBus, 0⟩, .branch 7 7,
    .data "add" 9 ⟨.addSub, 0⟩, .control "ldst" 9 ⟨.memoryBus, 0⟩]⟩
  oracle :=
    { dependences := fun op =>
        if op = 0 then some []
        else if op = 1 then some [.value 0 2]
        else if op = 2 then some [.loopCarried 5 1 1]
        else if op = 3 then some [.value 2 0]
        else if op = 4 then some [.value 3 2]
        else if op = 5 then some [.value 4 1]
        else if op = 6 then some [.value 2 0]
        else if op = 7 then some [.value 5 3]
        else some [.value 7 1, .value 0 1]
      stepsToFinish := fun _ => 1 }

theorem regionDependence_met_accessAround :
    ∃ g schedule last, (Region.schedule accessAround
        [⟨5, [0, 1]⟩, ⟨7, [2, 3, 4, 5, 6]⟩, ⟨9, [7, 8]⟩] 3 {} : Step PUnit (Graph × Schedule))
          ⟨⟨⟩, {}⟩ = .ok (g, schedule) last ∧
      (g.Counts 4 ∧ Region.CountsAlone accessAround ⟨7, [2, 3, 4, 5, 6]⟩ 3 {}
          (⟨⟨⟩, {}⟩ : Journaled PUnit) 4 ∧
        ∃ s t, schedule.slot? 3 = some s ∧ schedule.slot? 4 = some t ∧ s + 2 ≤ t) ∧
      g.Counts 7 ∧ g.HoldsData 7 ∧
        ∃ s t, schedule.slot? 5 = some s ∧ schedule.slot? 7 = some t ∧ s + 3 ≤ t := by
  have hsucceeds : (Region.schedule accessAround
      [⟨5, [0, 1]⟩, ⟨7, [2, 3, 4, 5, 6]⟩, ⟨9, [7, 8]⟩] 3 {} : Step PUnit
        (Graph × Schedule)).succeeds ⟨⟨⟩, {}⟩ (fun result => decide (result.1.Counts 4 ∧
          result.1.Counts 7 ∧ result.1.HoldsData 7)) = true := by
    decide +kernel
  have hsucceeds' : (scheduleBlock accessAround ⟨7, [2, 3, 4, 5, 6]⟩ 3 {} : Step PUnit
      (Graph × Schedule)).succeeds ⟨⟨⟩, {}⟩ (fun result => decide (result.1.Counts 4)) = true := by
    decide +kernel
  obtain ⟨⟨g, schedule⟩, last, hrun, htest⟩ := Step.exists_of_succeeds hsucceeds
  obtain ⟨hfour, hseven, hdata⟩ := of_decide_eq_true htest
  obtain ⟨⟨sub, alone⟩, last', halone, htest'⟩ := Step.exists_of_succeeds hsucceeds'
  have hcountsAlone : Region.CountsAlone accessAround ⟨7, [2, 3, 4, 5, 6]⟩ 3 {}
      (⟨⟨⟩, {}⟩ : Journaled PUnit) 4 := ⟨sub, alone, last', halone, of_decide_eq_true htest'⟩
  have hdistinct : Region.Distinct [⟨5, [0, 1]⟩, ⟨7, [2, 3, 4, 5, 6]⟩, ⟨9, [7, 8]⟩] := by
    simp [Region.Distinct]
  have hwithin : Region.Sees accessAround [⟨5, [0, 1]⟩, ⟨7, [2, 3, 4, 5, 6]⟩, ⟨9, [7, 8]⟩]
      ⟨7, [2, 3, 4, 5, 6]⟩ ⟨7, [2, 3, 4, 5, 6]⟩ := .within (by simp)
  have hacross : Region.Sees accessAround ([⟨5, [0, 1]⟩, ⟨7, [2, 3, 4, 5, 6]⟩] ++ [⟨9, [7, 8]⟩])
      ⟨9, [7, 8]⟩ ⟨7, [2, 3, 4, 5, 6]⟩ := .across rfl (by simp) (by rfl)
  have horders : accessAround.oracle.Orders 4 3 2 :=
    ⟨_, .value 3 2, rfl, List.mem_cons_self, rfl, rfl, rfl⟩
  have horders' : accessAround.oracle.Orders 7 5 3 :=
    ⟨_, .value 5 3, rfl, List.mem_cons_self, rfl, rfl, rfl⟩
  have hcarried : accessAround.oracle.CarriesLess 4 3 2 := by
    rintro _ ⟨⟩
    simp [Dependence.value]
  have hcarried' : accessAround.oracle.CarriesLess 7 5 3 := by
    rintro _ ⟨⟩
    simp [Dependence.value]
  have hphi : ¬accessAround.IsPhi 3 := by
    rintro ⟨_, ⟨⟩, hphi⟩
    cases hphi
  have hphi' : ¬accessAround.IsPhi 5 := by
    rintro ⟨_, ⟨⟩, hphi⟩
    cases hphi
  have hlowered : Region.isSelfLoop accessAround ⟨9, [7, 8]⟩ = .ok true →
      Region.CountsAlone accessAround ⟨9, [7, 8]⟩ 3 {} (⟨⟨⟩, {}⟩ : Journaled PUnit) 7 :=
    fun hloop => by cases hloop
  refine ⟨g, schedule, last, hrun, ⟨hfour, hcountsAlone, ?_⟩, hseven, hdata, ?_⟩
  · exact regionDependence_met hdistinct hrun hwithin (by simp) (by simp) horders hcarried hphi
      hfour (fun _ => hcountsAlone) (Or.inl rfl)
  · exact regionDependence_met hdistinct hrun hacross (by simp) (by simp) horders' hcarried' hphi'
      hseven hlowered (Or.inr (Or.inl hdata))

/-- A loop whose operation waits for one of the block before it. -/
def waitingLoop : Program where
  ops := ⟨#[.control "s" 0 .trivial, .branch 0 1, .control "o" 1 .trivial, .branch 1 1]⟩
  oracle :=
    { dependences := fun op => if op = 2 then some [.value 0 10] else some [.liveIn]
      stepsToFinish := fun _ => 0 }

/-- A loop takes part with a schedule of its own, which knows nothing of other blocks. -/
theorem earlierBlock_notAwaited :
    ∃ g schedule last, (Region.schedule waitingLoop [⟨0, [0, 1]⟩, ⟨1, [2, 3]⟩] 1 {} :
        Step PUnit (Graph × Schedule)) ⟨⟨⟩, {}⟩ = .ok (g, schedule) last ∧
      Region.Distinct [⟨0, [0, 1]⟩, ⟨1, [2, 3]⟩] ∧ waitingLoop.oracle.Orders 2 0 10 ∧
      ¬waitingLoop.IsPhi 0 ∧ (∃ id ∈ g.holder? (.op 2), g.IsNeeded id) ∧
      ¬∃ s t, schedule.slot? 0 = some s ∧ schedule.slot? 2 = some t ∧ s + 10 ≤ t := by
  have hsucceeds : (Region.schedule waitingLoop [⟨0, [0, 1]⟩, ⟨1, [2, 3]⟩] 1 {} : Step PUnit
      (Graph × Schedule)).succeeds ⟨⟨⟩, {}⟩ (fun result => decide (result.2.slot? 0 = some 1 ∧
        result.2.slot? 2 = some 1 ∧
          ∃ id ∈ result.1.holder? (.op 2), result.1.IsNeeded id)) = true := by
    decide +kernel
  obtain ⟨⟨g, schedule⟩, last, hrun, htest⟩ := Step.exists_of_succeeds hsucceeds
  obtain ⟨hsource, hop, hneeded⟩ := of_decide_eq_true htest
  refine ⟨g, schedule, last, hrun, by simp [Region.Distinct], ?_, ?_, hneeded, ?_⟩
  · exact ⟨_, .value 0 10, rfl, List.mem_cons_self, rfl, rfl, rfl⟩
  · rintro ⟨_, ⟨⟩, hphi⟩
    cases hphi
  · rintro ⟨s, t, hs, ht, hle⟩
    obtain rfl := Option.some.inj (hs.symm.trans hsource)
    obtain rfl := Option.some.inj (ht.symm.trans hop)
    omega

end SlotScheduling
