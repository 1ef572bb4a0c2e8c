import SlotScheduling.Proofs.Region.Assembled

/-!
# Frozen loops

A loop that is part of a region keeps the schedule that it has on its own: the region
moves all its operations by one distance, and leaves their classes and its interval as
they are.
-/

namespace SlotScheduling

namespace Graph

variable {program : Program} {basic : BasicBlock} {blocks : List BasicBlock} {op : OpId}
  {entrySlot base : Nat} {anchor : Option UnitId} {done : Completed}
  {sub g g' whole built : Graph} {id : UnitId}

theorem Settled.leads_iff (h : Settled built g) {instr : Instr} :
    g.Leads instr id ↔ built.Leads instr id :=
  exists_iff_of_map_eq (getElem?_of_body_eq h.body id) fun _ => Iff.rfl

section

variable (hsettled : Settled built g) (hembeds : Embeds sub done base anchor built)
  (hdone : Complete sub done) (halone : Alone program basic entrySlot sub)
  (hroot : ∀ exit, built.exitRoot = some exit → relocate base anchor done.exit ≤ exit)

include hsettled hembeds hdone halone hroot

/-- A schedule of the region meets the edge that ties a unit to the terminator exactly. -/
theorem Settled.slot_of_tied {s last x last' : Nat} (hmoves : Moves anchor id ∨ s ≤ last)
    (hid : id < done.exit) (hcounts : built.IsControl (relocate base anchor id) ∨
      g.IsNeeded (relocate base anchor id)) (hs : sub.slot? id = some s)
    (hlast : sub.slot? done.terminator = some last)
    (hx : g.slot? (relocate base anchor id) = some x)
    (hlast' : g.slot? (relocate base anchor done.terminator) = some last') :
    (x : Int) - last' = s - last := by
  obtain ⟨hne, hcontrol⟩ := halone.terminator hdone
  have hterminator : done.terminator < done.exit := hdone.last ▸ Nat.lt_succ_self _
  by_cases hsame : id = done.terminator
  · subst hsame
    obtain rfl := Option.some.inj (hs.symm.trans hlast)
    obtain rfl := Option.some.inj (hx.symm.trans hlast')
    rw [Int.sub_self, Int.sub_self]
  have hexit : ∀ {other : UnitId}, Moves anchor other → other < done.exit →
      built.exitRoot ≠ some (relocate base anchor other) := by
    intro other hother hlt hexit
    exact Nat.not_lt.mpr (hroot _ hexit) (relocate_lt hother hlt)
  have hanchor := (hembeds.isControl_iff hdone (Or.inr hne) hterminator).mpr hcontrol
  obtain ⟨bundle, distance, hedge, hcases⟩ := hembeds.tied hmoves hid hsame hs hlast
  have hzero : bundle.edge.distance = 0 := by
    rw [hedge]
    rfl
  have hfixed : bundle.edge.isFixedTiming = true := by
    rw [hedge]
    rfl
  have hlatency : bundle.edge.latency = distance := by
    rw [hedge]
    rfl
  rcases hcases with ⟨hbundle, hapart, hpos⟩ | ⟨hbundle, hapart⟩
  · have hmoves : Moves anchor id := hmoves.resolve_right (by omega)
    have hmet := hsettled.met (hexit hmoves hid) hbundle hzero hcounts (Or.inl hanchor) hlast' hx
    rw [hmet.eq hfixed, hlatency, hapart]
  · have hmet := hsettled.met (hexit (Or.inr hne) hterminator) hbundle hzero (Or.inl hanchor)
      (hcounts.imp_right Or.inl) hx hlast'
    have heq := hmet.eq hfixed
    rw [hlatency] at heq
    omega

/-- All units of an embedded loop move by one distance. -/
theorem Settled.exists_shift : ∃ shift : Int, ∀ {id s}, Moves anchor id → id < done.exit →
    sub.slot? id = some s →
    ∃ x, g.slot? (relocate base anchor id) = some x ∧ (x : Int) = s + shift := by
  obtain ⟨hne, hcontrol⟩ := halone.terminator hdone
  have hterminator : done.terminator < done.exit := hdone.last ▸ Nat.lt_succ_self _
  have hlt : ∀ {id}, Moves anchor id → id < done.exit →
      relocate base anchor id < built.units.size :=
    fun hmoves hid => Nat.lt_of_lt_of_le (relocate_lt hmoves hid) hembeds.size
  obtain ⟨last, hlast⟩ := hdone.placed hterminator
  obtain ⟨last', hlast'⟩ := hsettled.placed (hlt (Or.inr hne) hterminator)
  refine ⟨(last' : Int) - last, fun {id s} hmoves hid hs => ?_⟩
  obtain ⟨x, hx⟩ := hsettled.placed (hlt hmoves hid)
  refine ⟨x, hx, ?_⟩
  have hcounts : built.IsControl (relocate base anchor id) ∨
      g.IsNeeded (relocate base anchor id) :=
    (isControl_or_isData (hlt hmoves hid)).imp_right fun hdata =>
      hsettled.frozen hdata (hembeds.isFrozen hdone hmoves hid)
  have hslot := hsettled.slot_of_tied hembeds hdone halone hroot (Or.inl hmoves) hid hcounts hs
    hlast hx hlast'
  omega

/-- No unit of an embedded loop issues before its entry, also if that is folded into the entry
of the region. -/
theorem Settled.le_of_embeds {first slot : Nat} (hentry : built.IsControl (relocate base anchor 0))
    (hfirst : g.slot? (relocate base anchor 0) = some first) (hmoves : Moves anchor id)
    (hid : id < done.exit) (hslot : g.slot? (relocate base anchor id) = some slot) :
    first ≤ slot := by
  obtain ⟨hne, hcontrol⟩ := halone.terminator hdone
  have hterminator : done.terminator < done.exit := hdone.last ▸ Nat.lt_succ_self _
  obtain ⟨shift, hshift⟩ := hsettled.exists_shift hembeds hdone halone hroot
  obtain ⟨last, hlast⟩ := hdone.placed hterminator
  obtain ⟨last', hlast', hmoved'⟩ := hshift (Or.inr hne) hterminator hlast
  obtain ⟨s, hs⟩ := hdone.placed hid
  obtain ⟨x, hx, hmoved⟩ := hshift hmoves hid hs
  obtain rfl := Option.some.inj (hslot.symm.trans hx)
  have htied := hsettled.slot_of_tied hembeds hdone halone hroot (Or.inr (halone.later hlast))
    (hdone.last ▸ Nat.succ_pos _) (Or.inl hentry) halone.first hlast hfirst hlast'
  have hle := halone.later hs
  omega

end

/-- All units of a loop that were made for operations move with it. -/
theorem Alone.moves (h : Alone program basic entrySlot sub) (hdone : Complete sub done)
    (hleads : sub.Leads (.op op) id) : Moves anchor id ∧ id < done.exit := by
  obtain ⟨_, hne, hexit⟩ := h.of_leads_op hleads
  exact ⟨Or.inr hne, hdone.lt_exit hleads.lt_size hexit⟩

/-- The frozen units of a loop are all that a region has for its operations. -/
structure Houses (sub : Graph) (done : Completed) (base : Nat) (anchor : Option UnitId)
    (basic : BasicBlock) (g : Graph) : Prop extends Embeds sub done base anchor g where
  unclosed : ∀ exit, g.exitRoot = some exit → relocate base anchor done.exit ≤ exit
  leads : ∀ {op id}, op ∈ basic.ops → (g.Leads (.op op) id ↔
    ∃ old, Moves anchor old ∧ old < done.exit ∧ id = relocate base anchor old ∧
      sub.Leads (.op op) old)
  interval : g.interval? basic.id = sub.interval? basic.id

theorem interval?_of_absorbs {g g' : Graph} (h : Absorbs sub done anchor g g')
    (halone : Alone program basic entrySlot sub) (hnone : g.interval? basic.id = none) :
    g'.interval? basic.id = sub.interval? basic.id := by
  rw [interval?, h.intervals, interval?]
  rcases halone.own.entries with hempty | ⟨interval, hown⟩
  · rw [hempty, Table.insertAll, List.foldl_nil]
    simpa [Table.get?, hempty, interval?] using hnone
  · rw [hown, Table.insertAll, List.foldl_cons, List.foldl_nil, Table.get?_insert, if_pos rfl]
    simp [Table.get?, hown]

end Graph

namespace Region

open SlotScheduling.Graph

variable {σ : Type} {program : Program} {blocks : List BasicBlock} {basic : BasicBlock}
  {entrySlot : Nat} {options : SchedulingOptions} {threshold : Option Level}
  {whole built g : Graph}

/-- The blocks have different numbers, and no operation is in two of them. -/
def Distinct (blocks : List BasicBlock) : Prop :=
  blocks.Pairwise fun first second => first.id ≠ second.id ∧ first.ops.Disjoint second.ops

/-- A loop that joined a graph without units for its operations is all that the region has for
them, if no other block holds any of them. -/
theorem houses_of_absorbs {sub g₁ g₂ : Graph} {done : Completed} {anchor : Option UnitId}
    {after : List BasicBlock} {block : BlockId}
    (habsorbs : Absorbs sub done anchor g₁ g₂) (halone : Alone program basic entrySlot sub)
    (hdone : Complete sub done) (hnew : ∀ {op id}, op ∈ basic.ops → ¬g₁.Leads (.op op) id)
    (hnone : g₁.interval? basic.id = none) (hafter : Grows program after g₂ whole)
    (hothers : ∀ block ∈ after, basic.id ≠ block.id ∧ basic.ops.Disjoint block.ops)
    (hcloses : Closes block whole built) : Houses sub done g₁.units.size anchor basic built := by
  have hembeds := (habsorbs.embeds.mono hdone hafter.agrees hafter.size).mono hdone
    hcloses.agrees (by rw [hcloses.size]; exact Nat.le_succ _)
  refine ⟨hembeds, fun exit hexit => ?_, fun {op id} hop => ?_, ?_⟩
  · rw [← Option.some.inj (hcloses.exitRoot.symm.trans hexit), ← habsorbs.size]
    exact hafter.size
  · rw [hcloses.leads_op_iff,
      hafter.leads_op_iff fun block hblock hop' => (hothers block hblock).2 hop hop',
      habsorbs.leads_op_iff hdone]
    exact or_iff_right (hnew hop)
  · have hwhole : built.interval? basic.id = whole.interval? basic.id := by
      have hintervals := congrArg (fun rest => Table.get? rest.2.2.1 basic.id)
        hcloses.surroundings
      exact hintervals
    rw [hwhole, hafter.intervals fun block hblock => (hothers block hblock).1.symm,
      interval?_of_absorbs habsorbs halone hnone]

theorem Outcome.exists_houses
    (h : Outcome σ program blocks entrySlot options threshold whole built g)
    (hdistinct : Distinct blocks) (hbasic : basic ∈ blocks)
    (hloop : isSelfLoop program basic = .ok true) :
    ∃ sub done base anchor, GetsAlone σ program basic entrySlot options threshold sub ∧
      Alone program basic entrySlot sub ∧ Complete sub done ∧
        Houses sub done base anchor basic built := by
  obtain ⟨before, after, rfl⟩ := List.append_of_mem hbasic
  obtain ⟨entry, g₁, g₂, hbefore, _, hadded, hafter⟩ := h.added rfl
  obtain ⟨_, hcloses⟩ := h.closes
  cases hadded with
  | lowered hloops _ => cases hloops.symm.trans hloop
  | @merged _ sub done anchor hgets halone hdone habsorbs =>
      obtain ⟨_, hlater, hcross⟩ := List.pairwise_append.mp hdistinct
      have hearlier : ∀ block ∈ before, block.id ≠ basic.id ∧ block.ops.Disjoint basic.ops :=
        fun block hblock => hcross block hblock basic List.mem_cons_self
      have hnew : ∀ {op id}, op ∈ basic.ops → ¬g₁.Leads (.op op) id := fun hop hleads => by
        rw [hbefore.leads_op_iff fun block hblock hop' => (hearlier block hblock).2 hop' hop]
          at hleads
        cases (leads_start.mp hleads).2
      have hnone : g₁.interval? basic.id = none :=
        hbefore.intervals fun block hblock => (hearlier block hblock).1
      exact ⟨sub, done, _, anchor, hgets, halone, hdone, houses_of_absorbs habsorbs halone hdone
        hnew hnone hafter (List.pairwise_cons.mp hlater).1 hcloses⟩

theorem Outcome.unfused
    (h : Outcome σ program blocks entrySlot options threshold whole built g) {id : UnitId}
    {unit : ScheduleUnit} (hunit : g.units[id]? = some unit) : unit.fused = [] := by
  obtain ⟨_, hcloses⟩ := h.closes
  obtain ⟨unit', hunit', hbody⟩ := exists_of_body_eq h.settled.body hunit
  have hfused : unit.fused = unit'.fused := by
    have hfused := congrArg ScheduleUnit.fused hbody
    exact hfused
  rw [hfused]
  by_cases hid : id < whole.units.size
  · obtain ⟨old, hold, hbare⟩ := hcloses.agrees.exists_unit hid hunit'
    exact (h.growing.fresh_of_bare_eq hold hbare).2
  · have hlt := lt_size_of_getElem? hunit'
    rw [hcloses.size] at hlt
    obtain rfl : id = whole.units.size :=
      Nat.le_antisymm (Nat.le_of_lt_succ hlt) (Nat.not_lt.mp hid)
    obtain ⟨exit, hexit, hbare⟩ := Option.map_eq_some_iff.mp hcloses.exit
    obtain rfl := Option.some.inj (hunit'.symm.trans hexit)
    have hnone := congrArg ScheduleUnit.fused hbare
    exact hnone

theorem Outcome.intervals_eq
    (h : Outcome σ program blocks entrySlot options threshold whole built g) :
    g.intervals = built.intervals ∧ g.intervals.keys.Nodup := by
  obtain ⟨_, hcloses⟩ := h.closes
  have hintervals : built.intervals = whole.intervals :=
    congrArg (fun rest => rest.2.2.1) hcloses.surroundings
  refine ⟨h.settled.intervals, ?_⟩
  rw [h.settled.intervals, hintervals]
  exact h.growing.nodup

section

variable {sub : Graph} {done : Completed} {base : Nat} {anchor : Option UnitId} {op : OpId}

/-- The units of an embedded loop keep the classes that they have on their own. -/
theorem Outcome.class?_eq
    (h : Outcome σ program blocks entrySlot options threshold whole built g)
    (halone : Alone program basic entrySlot sub) (hdone : Complete sub done)
    (hembeds : Embeds sub done base anchor built) {id : UnitId} (hmoves : Moves anchor id)
    (hid : id < done.exit) : g.class? (relocate base anchor id) = sub.class? id := by
  rw [← hembeds.class?_eq hdone hmoves hid]
  have hsize : id < sub.units.size := by
    rw [hdone.size]
    exact Nat.lt_succ_of_lt hid
  rcases isControl_or_isData hsize with hcontrol | hdata
  · exact h.controlClass ((hembeds.isControl_iff hdone hmoves hid).mpr hcontrol)
  · refine h.frozenClass (hembeds.isFrozen hdone hmoves hid) ?_
    rw [hembeds.class?_eq hdone hmoves hid]
    exact halone.classes hdata

/-- If all units of a loop that the region houses move by one distance, the operations do. -/
theorem Outcome.slot?_of_shift
    (h : Outcome σ program blocks entrySlot options threshold whole built g)
    (halone : Alone program basic entrySlot sub) (hdone : Complete sub done)
    (hhouses : Houses sub done base anchor basic built) {schedule : Schedule} {shift : Int}
    (hreport : Schedule.ofGraph g = .ok schedule)
    (hshift : ∀ {id s}, Moves anchor id → id < done.exit → sub.slot? id = some s →
      ∃ x, g.slot? (relocate base anchor id) = some x ∧ (x : Int) = s + shift)
    {id : UnitId} (hop : op ∈ basic.ops) (hid : sub.holder? (.op op) = some id) :
    ∃ s t : Nat, sub.slot? id = some s ∧ schedule.slot? op = some t ∧ (t : Int) = s + shift := by
  have hlast := halone.held.holder hid
  obtain ⟨hmoves, hlt⟩ := halone.moves hdone hlast.leads
  obtain ⟨s, hs, _⟩ := halone.placed hlast.leads.lt_size
  obtain ⟨t, ht, heq⟩ := hshift hmoves hlt hs
  have hleads : ∀ {other}, g.Leads (.op op) other ↔ ∃ old, Moves anchor old ∧ old < done.exit ∧
      other = relocate base anchor old ∧ sub.Leads (.op op) old :=
    h.settled.leads_iff.trans (hhouses.leads hop)
  refine ⟨s, t, hs, slot?_ofGraph h.unfused hreport ⟨?_, fun {other} hother => ?_⟩ ht, heq⟩
  · exact hleads.mpr ⟨id, hmoves, hlt, rfl, hlast.leads⟩
  · obtain ⟨old, hmoves', _, rfl, hold⟩ := hleads.mp hother
    exact relocate_le hmoves' (hlast.last hold)

/-- A loop that the region houses is reported as it stands alone, moved by one distance. -/
theorem Outcome.exists_shift
    (h : Outcome σ program blocks entrySlot options threshold whole built g)
    (halone : Alone program basic entrySlot sub) (hdone : Complete sub done)
    (hhouses : Houses sub done base anchor basic built) {schedule : Schedule}
    (hreport : Schedule.ofGraph g = .ok schedule) :
    ∃ shift : Int, ∀ {op id}, op ∈ basic.ops → sub.holder? (.op op) = some id →
      ∃ s t : Nat, sub.slot? id = some s ∧ schedule.slot? op = some t ∧ (t : Int) = s + shift := by
  obtain ⟨shift, hshift⟩ := h.settled.exists_shift hhouses.toEmbeds hdone halone hhouses.unclosed
  exact ⟨shift, fun hop hid => h.slot?_of_shift halone hdone hhouses hreport hshift hop hid⟩

theorem latest_relocate {α : Type} {part part' : UnitId → Option α} {value : α}
    (hleads : ∀ {id}, g.Leads (.op op) id ↔ ∃ old, Moves anchor old ∧ old < done.exit ∧
      id = relocate base anchor old ∧ sub.Leads (.op op) old)
    (honly : ∀ {old}, sub.Leads (.op op) old → Moves anchor old ∧ old < done.exit)
    (hpart : ∀ {old}, Moves anchor old → old < done.exit →
      part' (relocate base anchor old) = part old) :
    g.Latest op part' value ↔ sub.Latest op part value := by
  constructor
  · rintro ⟨id, hid, hvalue, hlast⟩
    obtain ⟨old, hmoves, hlt, rfl, hold⟩ := hleads.mp hid
    refine ⟨old, hold, (hpart hmoves hlt).symm.trans hvalue, fun later hlater hafter => ?_⟩
    obtain ⟨hmoves', hlt'⟩ := honly hlater
    rw [← hpart hmoves' hlt']
    exact hlast _ (hleads.mpr ⟨later, hmoves', hlt', rfl, hlater⟩) (relocate_lt hmoves hafter)
  · rintro ⟨old, hold, hvalue, hlast⟩
    obtain ⟨hmoves, hlt⟩ := honly hold
    refine ⟨_, hleads.mpr ⟨old, hmoves, hlt, rfl, hold⟩, (hpart hmoves hlt).trans hvalue,
      fun later hlater hafter => ?_⟩
    obtain ⟨later, hmoves', hlt', rfl, hled⟩ := hleads.mp hlater
    rw [hpart hmoves' hlt']
    refine hlast later hled (Nat.lt_of_not_le fun hle => ?_)
    exact Nat.not_le.mpr hafter (relocate_le hmoves' hle)

end

end Region

/-- The second schedule has a block as the first one has it, moved by some distance. -/
structure Schedule.Shifts (basic : BasicBlock) (shift : Int) (alone region : Schedule) : Prop where
  slots : ∀ op ∈ basic.ops, ∃ s t : Nat, alone.slot? op = some s ∧ region.slot? op = some t ∧
    (t : Int) = s + shift
  classes : ∀ op ∈ basic.ops, region.class? op = alone.class? op
  interval : region.interval? basic.id = alone.interval? basic.id

open SlotScheduling.Graph

namespace Region

variable {σ : Type} {program : Program} {blocks : List BasicBlock} {basic : BasicBlock}
  {entrySlot base : Nat} {options : SchedulingOptions} {threshold : Option Level}
  {whole built sub g : Graph} {done : Completed} {anchor : Option UnitId}
  {alone schedule : Schedule}

theorem GetsAlone.exists_scheduleBlock
    (hgets : GetsAlone σ program basic entrySlot options threshold sub)
    (hreport : Schedule.ofGraph sub = .ok alone) {now : Journaled σ}
    (hnow : now.journal.threshold = threshold) :
    ∃ last, scheduleBlock program basic entrySlot options now = .ok (sub, alone) last := by
  obtain ⟨last, hrun⟩ := hgets now hnow
  obtain ⟨built, now₁, hbuild, hschedule⟩ := Step.bind_eq_ok.mp hrun
  refine ⟨last, Step.bind_eq_ok.mpr ⟨built, now₁, hbuild, Step.bind_eq_ok.mpr
    ⟨sub, last, hschedule, ?_⟩⟩⟩
  exact Step.lift_bind_eq_ok.mpr ⟨alone, hreport, rfl⟩

/-- A loop whose units all move by one distance is reported with its classes and its interval, and
moved by that distance. -/
theorem Outcome.shifts
    (h : Outcome σ program blocks entrySlot options threshold whole built g)
    (halone : Alone program basic entrySlot sub) (hdone : Complete sub done)
    (hhouses : Houses sub done base anchor basic built) {shift : Int}
    (hreport : Schedule.ofGraph g = .ok schedule) (hreport' : Schedule.ofGraph sub = .ok alone)
    (hshift : ∀ {id s}, Moves anchor id → id < done.exit → sub.slot? id = some s →
      ∃ x, g.slot? (relocate base anchor id) = some x ∧ (x : Int) = s + shift) :
    Schedule.Shifts basic shift alone schedule := by
  have hleads : ∀ {op id}, op ∈ basic.ops → (g.Leads (.op op) id ↔ ∃ old, Moves anchor old ∧
      old < done.exit ∧ id = relocate base anchor old ∧ sub.Leads (.op op) old) :=
    fun hop => h.settled.leads_iff.trans (hhouses.leads hop)
  obtain ⟨hintervals, hnodup⟩ := h.intervals_eq
  refine ⟨fun op hop => ?_, fun op hop => ?_, ?_⟩
  · obtain ⟨holder, hholder⟩ := halone.holder hop
    obtain ⟨s, t, hs, ht, heq⟩ :=
      h.slot?_of_shift halone hdone hhouses hreport hshift hop hholder
    exact ⟨s, t, slot?_ofGraph halone.unfused hreport' (halone.held.holder hholder) hs, ht, heq⟩
  · refine Option.ext fun valueClass => ?_
    rw [class?_ofGraph h.unfused hreport, class?_ofGraph halone.unfused hreport']
    exact latest_relocate (hleads hop) (halone.moves hdone) fun hmoves hlt =>
      h.class?_eq halone hdone hhouses.toEmbeds hmoves hlt
  · rw [interval?_ofGraph hreport hnodup, interval?_ofGraph hreport' halone.own.nodup,
      Graph.interval?, hintervals]
    exact hhouses.interval

end Region

/-- A loop of a region can be scheduled on its own, and the region has it with that
schedule, moved by one distance. -/
theorem frozenLoop_shifts {σ : Type} {program : Program} {blocks : List BasicBlock}
    {basic : BasicBlock} {entrySlot : Nat} {options : SchedulingOptions} {now last : Journaled σ}
    {g : Graph} {schedule : Schedule} (hdistinct : Region.Distinct blocks)
    (h : Region.schedule program blocks entrySlot options now = .ok (g, schedule) last)
    (hbasic : basic ∈ blocks) (hloop : Region.isSelfLoop program basic = .ok true) :
    ∃ sub alone, (∀ now' : Journaled σ, now'.journal.threshold = now.journal.threshold →
        ∃ last', scheduleBlock program basic entrySlot options now' = .ok (sub, alone) last') ∧
      ∃ shift, Schedule.Shifts basic shift alone schedule := by
  obtain ⟨⟨whole, built, houtcome⟩, hreport⟩ := Region.outcome_of_eq_ok h
  obtain ⟨sub, done, base, anchor, hgets, halone, hdone, hhouses⟩ :=
    houtcome.exists_houses hdistinct hbasic hloop
  obtain ⟨alone, hreport'⟩ := exists_ofGraph halone.unfused halone.placed
  obtain ⟨shift, hshift⟩ :=
    houtcome.settled.exists_shift hhouses.toEmbeds hdone halone hhouses.unclosed
  exact ⟨sub, alone, fun now' hnow' => hgets.exists_scheduleBlock hreport' hnow', shift,
    houtcome.shifts halone hdone hhouses hreport hreport' hshift⟩

/-- A loop that accesses one memory twice in every iteration, behind a block that accesses
it once. -/
def accessRegion : Program where
  ops := ⟨#[.control "ldst" 5 ⟨.memoryBus, 0⟩, .branch 5 7,
    { Operation.control "phi" 7 .trivial with phi := true }, .control "ldst" 7 ⟨.memoryBus, 0⟩,
    .data "add" 7 ⟨.addSub, 0⟩, .control "ldst" 7 ⟨.memoryBus, 0⟩, .branch 7 7]⟩
  oracle :=
    { dependences := fun op =>
        if op = 0 then some []
        else if op = 1 then some [.value 0 2]
        else if op = 2 then some [.loopCarried 5 1 1]
        else if op = 3 then some [.value 2 0]
        else if op = 4 then some [.value 3 2]
        else if op = 5 then some [.value 4 1]
        else some [.value 2 0]
      stepsToFinish := fun _ => 1 }

theorem frozenLoop_shifts_accessRegion :
    ∃ g schedule last sub alone, (Region.schedule accessRegion
        [⟨5, [0, 1]⟩, ⟨7, [2, 3, 4, 5, 6]⟩] 3 {} : Step PUnit (Graph × Schedule)) ⟨⟨⟩, {}⟩ =
          .ok (g, schedule) last ∧
      (∀ now' : Journaled PUnit, now'.journal.threshold = none → ∃ last',
        scheduleBlock accessRegion ⟨7, [2, 3, 4, 5, 6]⟩ 3 {} now' = .ok (sub, alone) last') ∧
      ∃ shift, Schedule.Shifts ⟨7, [2, 3, 4, 5, 6]⟩ shift alone schedule := by
  have hsucceeds : (Region.schedule accessRegion [⟨5, [0, 1]⟩, ⟨7, [2, 3, 4, 5, 6]⟩] 3 {} :
      Step PUnit (Graph × Schedule)).succeeds ⟨⟨⟩, {}⟩ (fun _ => true) = true := by
    decide +kernel
  obtain ⟨⟨g, schedule⟩, last, hrun, _⟩ := Step.exists_of_succeeds hsucceeds
  obtain ⟨sub, alone, halone, hshifts⟩ := frozenLoop_shifts (by simp [Region.Distinct]) hrun
    (List.mem_cons_of_mem _ List.mem_cons_self) (by rfl)
  exact ⟨g, schedule, last, sub, alone, hrun, halone, hshifts⟩

end SlotScheduling
