import SlotScheduling.Proofs.Freezing.Merged
import SlotScheduling.Proofs.Region.Grown

/-!
# Embedded loops

A loop that was scheduled on its own is part of the graph of a region as its frozen
units.  They stand for the operations of the loop there, and each of them is as far
from the terminator of the loop as it was in the schedule of the loop.
-/

namespace SlotScheduling

namespace Graph

variable {program : Program} {basic : BasicBlock} {entrySlot base : Nat} {op : OpId}
  {anchor : Option UnitId} {done : Completed} {sub g g' : Graph} {id : UnitId}

/-! ## Operations of a loop on its own -/

theorem Alone.of_leads_op (h : Alone program basic entrySlot sub) (hleads : sub.Leads (.op op) id) :
    op ∈ basic.ops ∧ id ≠ sub.entryRoot ∧ sub.exitRoot ≠ some id := by
  have hexit : sub.exitRoot ≠ some id := by
    intro hexit
    cases hleads.unique (h.exitLead hexit)
  refine ⟨?_, ?_, hexit⟩
  · obtain ⟨unit, hunit, hlead⟩ := hleads
    rcases (h.parts hexit hunit).lead with hentry | ⟨op', hop', hlead', _⟩
    · cases hlead.symm.trans hentry
    · cases hlead.symm.trans hlead'
      exact hop'
  · rintro rfl
    cases hleads.unique h.rootLead

theorem Complete.lt_exit (hdone : Complete sub done) (hid : id < sub.units.size)
    (hexit : sub.exitRoot ≠ some id) : id < done.exit := by
  rw [hdone.size] at hid
  rw [hdone.exit] at hexit
  exact Nat.lt_of_le_of_ne (Nat.le_of_lt_succ hid) fun heq => hexit (congrArg some heq.symm)

theorem Complete.exitRoot_ne (hdone : Complete sub done) (hid : id < done.exit) :
    sub.exitRoot ≠ some id := by
  rw [hdone.exit]
  exact fun heq => Nat.ne_of_gt hid (Option.some.inj heq)

theorem Alone.terminator (h : Alone program basic entrySlot sub) (hdone : Complete sub done) :
    done.terminator ≠ 0 ∧ sub.IsControl done.terminator := by
  have hends := hdone.terminator
  rw [h.entryBlock] at hends
  exact h.ends hends

/-! ## Embeddings -/

/-- The units of a loop that was scheduled on its own, frozen in the graph of a region. -/
structure Embeds (sub : Graph) (done : Completed) (base : Nat) (anchor : Option UnitId)
    (g : Graph) : Prop where
  size : relocate base anchor done.exit ≤ g.units.size
  units : ∀ {id unit}, Moves anchor id → id < done.exit → sub.units[id]? = some unit →
    g.units[relocate base anchor id]?.map ScheduleUnit.bare =
      some { unit.frozen with id := relocate base anchor id }
  tied : ∀ {id : UnitId} {s t : Nat}, Moves anchor id ∨ s ≤ t → id < done.exit →
    id ≠ done.terminator → sub.slot? id = some s → sub.slot? done.terminator = some t →
    Tied g.bundle? (relocate base anchor id) (relocate base anchor done.terminator) ((s : Int) - t)

theorem Absorbs.embeds (h : Absorbs sub done anchor g g') :
    Embeds sub done g.units.size anchor g' :=
  ⟨Nat.le_of_eq h.size.symm, h.moved, h.tied⟩

/-- A graph that grows keeps what is embedded in it. -/
theorem Embeds.mono (h : Embeds sub done base anchor g) (hdone : Complete sub done)
    (hagrees : AgreesBelow g.units.size g g') (hsize : g.units.size ≤ g'.units.size) :
    Embeds sub done base anchor g' := by
  have hlt : ∀ {id}, Moves anchor id → id < done.exit →
      relocate base anchor id < g.units.size :=
    fun hmoves hid => Nat.lt_of_lt_of_le (relocate_lt hmoves hid) h.size
  refine ⟨Nat.le_trans h.size hsize, fun hmoves hid hunit => ?_,
    fun {id s t} hmoves hid hne hs ht => ?_⟩
  · rw [hagrees.units (hlt hmoves hid), h.units hmoves hid hunit]
  · have hlast : Moves anchor done.terminator := hdone.moves_terminator hid hne
    obtain ⟨bundle, distance, hedge, hcases⟩ := h.tied hmoves hid hne hs ht
    refine ⟨bundle, distance, hedge, ?_⟩
    rcases hcases with ⟨hbundle, hapart, hpos⟩ | ⟨hbundle, hapart⟩
    · have hmoves : Moves anchor id := hmoves.resolve_right (by omega)
      exact Or.inl ⟨hagrees.edges (hlt hmoves hid) ▸ hbundle, hapart, hpos⟩
    · exact Or.inr ⟨hagrees.edges (hlt hlast (hdone.last ▸ Nat.lt_succ_self _)) ▸ hbundle, hapart⟩

/-- What can be read off the frozen unit holds where the unit came to stand. -/
theorem Embeds.exists_iff (h : Embeds sub done base anchor g) (hdone : Complete sub done)
    (hmoves : Moves anchor id) (hid : id < done.exit) {P : ScheduleUnit → Prop}
    (hbare : ∀ unit : ScheduleUnit, P unit.bare ↔ P unit)
    (hfrozen : ∀ (unit : ScheduleUnit) id, P { unit.frozen with id } ↔ P unit) :
    (∃ unit, g.units[relocate base anchor id]? = some unit ∧ P unit) ↔
      ∃ unit, sub.units[id]? = some unit ∧ P unit := by
  obtain ⟨slot, hslot⟩ := hdone.placed hid
  obtain ⟨old, hold, _⟩ := Option.bind_eq_some_iff.mp hslot
  obtain ⟨new, hnew, heq⟩ := Option.map_eq_some_iff.mp (h.units hmoves hid hold)
  have hsame : P new ↔ P old := by rw [← hbare, heq, hfrozen]
  constructor
  · rintro ⟨unit, hunit, hP⟩
    obtain rfl := Option.some.inj (hunit.symm.trans hnew)
    exact ⟨old, hold, hsame.mp hP⟩
  · rintro ⟨unit, hunit, hP⟩
    obtain rfl := Option.some.inj (hunit.symm.trans hold)
    exact ⟨new, hnew, hsame.mpr hP⟩

section

variable (h : Embeds sub done base anchor g) (hdone : Complete sub done)
  (hmoves : Moves anchor id) (hid : id < done.exit)

include h hdone hmoves hid

theorem Embeds.leads_iff {instr : Instr} :
    g.Leads instr (relocate base anchor id) ↔ sub.Leads instr id :=
  h.exists_iff hdone hmoves hid (fun _ => Iff.rfl) fun _ _ => Iff.rfl

theorem Embeds.isControl_iff : g.IsControl (relocate base anchor id) ↔ sub.IsControl id :=
  h.exists_iff hdone hmoves hid (fun _ => Iff.rfl) fun _ _ => Iff.rfl

theorem Embeds.isData_iff : g.IsData (relocate base anchor id) ↔ sub.IsData id :=
  h.exists_iff hdone hmoves hid (fun _ => Iff.rfl) fun _ _ => Iff.rfl

theorem Embeds.isFrozen : g.IsFrozen (relocate base anchor id) := by
  obtain ⟨slot, hslot⟩ := hdone.placed hid
  obtain ⟨old, hold, _⟩ := Option.bind_eq_some_iff.mp hslot
  obtain ⟨new, hnew, heq⟩ := Option.map_eq_some_iff.mp (h.units hmoves hid hold)
  have hfixed := congrArg ScheduleUnit.fixedTiming heq
  exact ⟨new, hnew, hfixed⟩

theorem Embeds.class?_eq : g.class? (relocate base anchor id) = sub.class? id := by
  obtain ⟨slot, hslot⟩ := hdone.placed hid
  obtain ⟨old, hold, _⟩ := Option.bind_eq_some_iff.mp hslot
  obtain ⟨new, hnew, heq⟩ := Option.map_eq_some_iff.mp (h.units hmoves hid hold)
  have hclass : new.valueClass = old.valueClass := by
    have hclass := congrArg ScheduleUnit.valueClass heq
    exact hclass
  rw [class?, hnew, class?, hold, Option.bind_some, Option.bind_some, hclass]

end

/-! ## Joining a region -/

variable {unit : ScheduleUnit}

section

variable (h : Absorbs sub done anchor g g') (hdone : Complete sub done)

include h hdone

theorem Absorbs.exists_old (hid : g.units.size ≤ id) (hunit : g'.units[id]? = some unit) :
    ∃ old position, Moves anchor position ∧ position < done.exit ∧
      id = relocate g.units.size anchor position ∧ sub.units[position]? = some old ∧
        unit.bare = { old.frozen with id } := by
  obtain ⟨position, hmoves, rfl⟩ := exists_relocate anchor hid
  have hlt : position < done.exit := by
    have hsize := lt_size_of_getElem? hunit
    rw [h.size] at hsize
    by_contra hle
    exact Nat.not_lt.mpr (relocate_le (Or.inr (hdone.last ▸ Nat.succ_ne_zero _))
      (Nat.not_lt.mp hle)) hsize
  obtain ⟨slot, hslot⟩ := hdone.placed hlt
  obtain ⟨old, hold, _⟩ := Option.bind_eq_some_iff.mp hslot
  obtain ⟨new, hnew, heq⟩ := Option.map_eq_some_iff.mp (h.moved hmoves hlt hold)
  obtain rfl := Option.some.inj (hunit.symm.trans hnew)
  exact ⟨old, position, hmoves, hlt, rfl, hold, heq⟩

/-- A new unit leads an operation where the loop had one that leads it. -/
theorem Absorbs.leads_op_iff : g'.Leads (.op op) id ↔ g.Leads (.op op) id ∨
    ∃ old, Moves anchor old ∧ old < done.exit ∧ id = relocate g.units.size anchor old ∧
      sub.Leads (.op op) old := by
  by_cases hid : id < g.units.size
  · rw [h.agrees.leads_iff hid]
    refine ⟨Or.inl, fun hcases => hcases.resolve_right ?_⟩
    rintro ⟨old, hmoves, _, rfl, _⟩
    exact Nat.not_lt.mpr (base_le_relocate hmoves) hid
  · constructor
    · rintro ⟨unit, hunit, hlead⟩
      obtain ⟨old, position, hmoves, hlt, rfl, hold, heq⟩ :=
        h.exists_old hdone (Nat.not_lt.mp hid) hunit
      have hlead' := congrArg ScheduleUnit.lead heq
      exact Or.inr ⟨position, hmoves, hlt, rfl, old, hold, hlead'.symm.trans hlead⟩
    · rintro (hold | ⟨old, hmoves, hlt, rfl, hleads⟩)
      · exact absurd hold.lt_size hid
      · exact (h.embeds.leads_iff hdone hmoves hlt).mpr hleads

theorem Absorbs.partOf (hsub : Alone program basic entrySlot sub) (hid : g.units.size ≤ id)
    (hunit : g'.units[id]? = some unit) : unit.PartOf program basic := by
  obtain ⟨old, position, _, hlt, _, hold, heq⟩ := h.exists_old hdone hid hunit
  have hpart := hsub.parts (hdone.exitRoot_ne hlt) hold
  have hbare : unit.bare.PartOf program basic := by
    rw [heq]
    exact ⟨hpart.block, hpart.fused, hpart.lead, hpart.moves⟩
  exact ⟨hbare.block, hbare.fused, hbare.lead, hbare.moves⟩

end

theorem Alone.mem_holders (h : Alone program basic entrySlot sub) (hdone : Complete sub done)
    {old : UnitId} (hentry : (.op op, old) ∈ sub.holders.entries) :
    sub.IsLast (.op op) old ∧ old ≠ 0 ∧ old < done.exit ∧ op ∈ basic.ops := by
  have hlast := h.held.last hentry
  obtain ⟨hmem, hroot, hexit⟩ := h.of_leads_op hlast.leads
  exact ⟨hlast, hroot, hdone.lt_exit hlast.leads.lt_size hexit, hmem⟩

/-- Operations of the loop are held where its units came to stand. -/
theorem Absorbs.exists_holders (h : Absorbs sub done anchor g g') :
    ∃ more : List (Instr × UnitId), g'.holders = g.holders.insertAll more ∧
      ∀ {op id}, (.op op, id) ∈ more ↔
        ∃ old, (.op op, old) ∈ sub.holders.entries ∧ relocate g.units.size anchor old = id := by
  refine ⟨_, h.holders, fun {op id} => ?_⟩
  simp only [List.mem_map, Prod.mk.injEq, Prod.exists]
  constructor
  · rintro ⟨instr, old, hentry, rfl, hid⟩
    refine ⟨old, ?_, hid⟩
    split at hentry
    · exact List.mem_of_mem_filter (List.mem_of_mem_filter hentry)
    · exact List.mem_of_mem_filter hentry
  · rintro ⟨old, hentry, hid⟩
    refine ⟨.op op, old, ?_, rfl, hid⟩
    split
    · simp [Table.erase, hentry]
    · simp [Table.erase, hentry]

section

variable (h : Absorbs sub done anchor g g') (hdone : Complete sub done)
  (hsub : Alone program basic entrySlot sub)

include h hdone hsub

theorem Absorbs.held (hg : g.Held) : g'.Held := by
  obtain ⟨more, hholders, hmore⟩ := h.exists_holders
  refine ⟨fun {op id} hid => ?_⟩
  rw [hholders] at hid
  rcases Table.mem_entries_insertAll hid with hnew | ⟨hold, hkept⟩
  · obtain ⟨old, hentry, rfl⟩ := hmore.mp hnew
    obtain ⟨hlast, hne, hlt, _⟩ := hsub.mem_holders hdone hentry
    have hmoves : Moves anchor old := Or.inr hne
    refine ⟨(h.leads_op_iff hdone).mpr (Or.inr ⟨old, hmoves, hlt, rfl, hlast.leads⟩),
      fun hother => ?_⟩
    rcases (h.leads_op_iff hdone).mp hother with hled | ⟨other, hmoves', _, rfl, hled⟩
    · exact Nat.le_trans (Nat.le_of_lt hled.lt_size) (base_le_relocate hmoves)
    · exact relocate_le hmoves' (hlast.last hled)
  · obtain ⟨hleads, hlast⟩ := hg.last hold
    refine ⟨(h.leads_op_iff hdone).mpr (Or.inl hleads), fun hother => ?_⟩
    rcases (h.leads_op_iff hdone).mp hother with hled | ⟨other, _, _, rfl, hled⟩
    · exact hlast hled
    · -- An operation of the loop is held by a unit of the loop from now on.
      obtain ⟨holder, hholder⟩ := hsub.holder (hsub.of_leads_op hled).1
      have hnew := hmore.mpr ⟨holder, Table.mem_entries_of_get?_eq_some hholder, rfl⟩
      exact (hkept (.op op, relocate g.units.size anchor holder) hnew rfl).elim

theorem grows_of_absorbs : Grows program [basic] g g' where
  agrees := h.agrees
  size := by
    rw [h.size]
    exact base_le_relocate (Or.inr (hdone.last ▸ Nat.succ_ne_zero _))
  start := ⟨h.rest.1, h.rest.2.1⟩
  parts := fun hid hunit => ⟨basic, List.mem_singleton_self _, h.partOf hdone hsub hid hunit⟩
  holder := by
    rintro op ⟨basic', hbasic, hop⟩
    obtain rfl := List.mem_singleton.mp hbasic
    obtain ⟨more, hholders, hmore⟩ := h.exists_holders
    obtain ⟨old, hold⟩ := hsub.holder hop
    have hmem := hmore.mpr ⟨old, Table.mem_entries_of_get?_eq_some hold, rfl⟩
    obtain ⟨id, _, hid⟩ : ∃ id, _ ∧ (g.holders.insertAll more).get? (.op op) = some id :=
      Table.exists_get?_insertAll hmem
    exact ⟨id, by rw [holder?, hholders, hid]⟩
  others := by
    intro op hop
    obtain ⟨more, hholders, hmore⟩ := h.exists_holders
    rw [holder?, hholders, Table.get?_insertAll_of_forall_ne, holder?]
    rintro ⟨instr, id⟩ hentry rfl
    obtain ⟨old, hentry, _⟩ := hmore.mp hentry
    exact hop basic (List.mem_singleton_self _) (hsub.mem_holders hdone hentry).2.2.2
  intervals := by
    intro block hblock
    have hne : basic.id ≠ block := hblock basic (List.mem_singleton_self _)
    rw [interval?, h.intervals, Table.get?_insertAll_of_forall_ne, interval?]
    rcases hsub.own.entries with hnone | ⟨interval, hown⟩
    · simp [hnone]
    · simpa [hown] using hne

theorem Absorbs.braced (hmoves : Moves anchor id) (hid : id < done.exit) (hdata : sub.IsData id)
    (hclosed : g'.exitRoot = none) :
    ∃ anchor' bundle distance, g'.IsControl anchor' ∧ g'.exitRoot ≠ some anchor' ∧
      (g'.bundle? (relocate g.units.size anchor id) anchor' = some bundle ∨
        g'.bundle? anchor' (relocate g.units.size anchor id) = some bundle) ∧
      bundle.edge = .fixedTiming distance ∧ distance < Word.count := by
  obtain ⟨hne, hcontrol⟩ := hsub.terminator hdone
  have hlast : done.terminator < done.exit := hdone.last ▸ Nat.lt_succ_self _
  have hother : id ≠ done.terminator := by
    rintro rfl
    exact hcontrol.not_isData hdata
  obtain ⟨s, hs, hsword⟩ := hsub.placed hdata.lt_size
  obtain ⟨t, ht, htword⟩ := hsub.placed hcontrol.lt_size
  obtain ⟨bundle, distance, hedge, hcases⟩ := h.tied (Or.inl hmoves) hid hother hs ht
  refine ⟨relocate g.units.size anchor done.terminator, bundle, distance,
    (h.embeds.isControl_iff hdone (Or.inr hne) hlast).mpr hcontrol, by simp [hclosed],
    hcases.imp And.left And.left, hedge, ?_⟩
  rcases hcases with ⟨_, hapart⟩ | ⟨_, hapart⟩ <;> omega

theorem growing_of_absorbs (hg : g.Growing) : g'.Growing where
  toWellFormed := h.toWellFormed
  held := h.held hdone hsub hg.held
  root := (h.agrees.isControl_iff hg.root.lt_size).mpr hg.root
  rootLead := by
    rw [h.rest.1]
    exact (h.agrees.leads_iff hg.root.lt_size).mpr hg.rootLead
  straight := h.rest.2.2.1.trans hg.straight
  unclosed := h.rest.2.2.2.trans hg.unclosed
  fresh := by
    intro id unit hunit
    by_cases hid : id < g.units.size
    · obtain ⟨unit', hunit', hbare⟩ := h.agrees.exists_unit hid hunit
      exact hg.fresh_of_bare_eq hunit' hbare
    · obtain ⟨old, _, _, _, _, hold, heq⟩ := h.exists_old hdone (Nat.not_lt.mp hid) hunit
      have hslot := congrArg ScheduleUnit.slot heq
      have hfused : unit.fused = old.fused := by
        have hfused := congrArg ScheduleUnit.fused heq
        exact hfused
      exact ⟨hslot, hfused.trans (hsub.unfused hold)⟩
  braced := by
    intro id hdata hfrozen
    have hclosed := h.rest.2.2.2.trans hg.unclosed
    by_cases hid : id < g.units.size
    · exact h.agrees.braced hg.braced (by simp [hclosed]) hid hdata hfrozen
    · have hunit := Array.getElem?_eq_getElem hdata.lt_size
      obtain ⟨_, old, hmoves, hlt, rfl, _⟩ := h.exists_old hdone (Nat.not_lt.mp hid) hunit
      exact h.braced hdone hsub hmoves hlt ((h.embeds.isData_iff hdone hmoves hlt).mp hdata) hclosed
  nodup := by
    rw [h.intervals]
    exact Table.nodup_keys_insertAll hg.nodup

end

end Graph

end SlotScheduling
