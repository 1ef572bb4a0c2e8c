import SlotScheduling.Proofs.Region.Alone

/-!
# Growing regions

The blocks of a region are added to one graph, one after the other.  What a block adds
stays as it is while further blocks are added, and every operation of a block that was
added has a unit.
-/

namespace SlotScheduling

namespace Graph

variable {program : Program} {basic : BasicBlock} {blocks more : List BasicBlock}
  {g g' g'' : Graph} {id : UnitId} {op : OpId}

/-- A graph to which blocks can be added. -/
structure Growing (g : Graph) : Prop extends WellFormed g where
  held : g.Held
  root : g.IsControl g.entryRoot
  rootLead : g.Leads (.entry g.entryBlock) g.entryRoot
  straight : g.loopOp = none
  unclosed : g.exitRoot = none
  fresh : ∀ {id : UnitId} {unit : ScheduleUnit}, g.units[id]? = some unit →
    unit.slot = none ∧ unit.fused = []
  braced : DataPath.Braced g
  nodup : g.intervals.keys.Nodup

theorem Growing.fresh_of_bare_eq (hg : g.Growing) {unit unit' : ScheduleUnit}
    (hunit : g.units[id]? = some unit) (hbare : unit'.bare = unit.bare) :
    unit'.slot = none ∧ unit'.fused = [] := by
  have hslot := congrArg ScheduleUnit.slot hbare
  have hfused := congrArg ScheduleUnit.fused hbare
  exact ⟨hslot.trans (hg.fresh hunit).1, hfused.trans (hg.fresh hunit).2⟩

/-- The second graph is the first one with some blocks added. -/
structure Grows (program : Program) (blocks : List BasicBlock) (g g' : Graph) : Prop where
  agrees : AgreesBelow g.units.size g g'
  size : g.units.size ≤ g'.units.size
  start : g'.entryBlock = g.entryBlock ∧ g'.entrySlot = g.entrySlot
  parts : ∀ {id : UnitId} {unit : ScheduleUnit}, g.units.size ≤ id →
    g'.units[id]? = some unit → ∃ basic ∈ blocks, unit.PartOf program basic
  holder : ∀ {op}, (∃ basic ∈ blocks, op ∈ basic.ops) → ∃ id, g'.holder? (.op op) = some id
  others : ∀ {op}, (∀ basic ∈ blocks, op ∉ basic.ops) →
    g'.holder? (.op op) = g.holder? (.op op)
  intervals : ∀ {block}, (∀ basic ∈ blocks, basic.id ≠ block) →
    g'.interval? block = g.interval? block

theorem growing_start (block : BlockId) (entrySlot : Nat) :
    (Graph.start block entrySlot).Growing where
  toWellFormed := (OfBlock.start block entrySlot).toWellFormed
  held := held_start block entrySlot
  root := (OfBlock.start block entrySlot).root
  rootLead := leads_start.mpr ⟨rfl, rfl⟩
  straight := rfl
  unclosed := rfl
  fresh := by
    intro id unit hunit
    rw [getElem?_start] at hunit
    split at hunit
    · cases hunit
      exact ⟨rfl, rfl⟩
    · cases hunit
  braced := DataPath.braced_of_ofBlock (OfBlock.start block entrySlot)
  nodup := List.nodup_nil

theorem Grows.refl (program : Program) (g : Graph) : Grows program [] g g where
  agrees := AgreesBelow.refl _ g
  size := Nat.le_refl _
  start := ⟨rfl, rfl⟩
  parts := fun hid hunit => absurd (lt_size_of_getElem? hunit) (Nat.not_lt.mpr hid)
  holder := by simp
  others := fun _ => rfl
  intervals := fun _ => rfl

theorem Grows.trans (h : Grows program blocks g g') (h' : Grows program more g' g'') :
    Grows program (blocks ++ more) g g'' where
  agrees := h.agrees.trans (h'.agrees.mono h.size)
  size := Nat.le_trans h.size h'.size
  start := ⟨h'.start.1.trans h.start.1, h'.start.2.trans h.start.2⟩
  parts := by
    intro id unit hid hunit
    by_cases hlt : id < g'.units.size
    · obtain ⟨unit', hunit', hbare⟩ := h'.agrees.exists_unit hlt hunit
      obtain ⟨basic, hbasic, hpart⟩ := h.parts hid hunit'
      exact ⟨basic, List.mem_append_left _ hbasic, hpart.of_bare_eq hbare⟩
    · obtain ⟨basic, hbasic, hpart⟩ := h'.parts (Nat.not_lt.mp hlt) hunit
      exact ⟨basic, List.mem_append_right _ hbasic, hpart⟩
  holder := by
    rintro op ⟨basic, hbasic, hop⟩
    by_cases hlater : ∃ basic ∈ more, op ∈ basic.ops
    · exact h'.holder hlater
    · have hkept : g''.holder? (.op op) = g'.holder? (.op op) :=
        h'.others fun basic hbasic hop => hlater ⟨basic, hbasic, hop⟩
      rw [hkept]
      rcases List.mem_append.mp hbasic with hbasic | hbasic
      · exact h.holder ⟨basic, hbasic, hop⟩
      · exact absurd ⟨basic, hbasic, hop⟩ hlater
  others := by
    intro op hop
    rw [h'.others fun basic hbasic => hop basic (List.mem_append_right _ hbasic),
      h.others fun basic hbasic => hop basic (List.mem_append_left _ hbasic)]
  intervals := by
    intro block hblock
    rw [h'.intervals fun basic hbasic => hblock basic (List.mem_append_right _ hbasic),
      h.intervals fun basic hbasic => hblock basic (List.mem_append_left _ hbasic)]

/-- Blocks without an operation make no units for it. -/
theorem Grows.leads_op_iff (h : Grows program blocks g g')
    (hop : ∀ basic ∈ blocks, op ∉ basic.ops) : g'.Leads (.op op) id ↔ g.Leads (.op op) id := by
  by_cases hid : id < g.units.size
  · exact h.agrees.leads_iff hid
  · refine ⟨?_, fun hleads => absurd hleads.lt_size hid⟩
    rintro ⟨unit, hunit, hlead⟩
    obtain ⟨basic, hbasic, hpart⟩ := h.parts (Nat.not_lt.mp hid) hunit
    rcases hpart.lead with hentry | ⟨op', hop', hlead', _⟩
    · cases hentry.symm.trans hlead
    · cases hlead'.symm.trans hlead
      exact absurd hop' (hop basic hbasic)

/-- Braces stay while a graph grows. -/
theorem AgreesBelow.braced (h : AgreesBelow g.units.size g g') (hg : DataPath.Braced g)
    (hroot : ∀ exit, g'.exitRoot = some exit → g.units.size ≤ exit)
    (hid : id < g.units.size) (hdata : g'.IsData id) (hfrozen : g'.IsFrozen id) :
    ∃ anchor bundle distance, g'.IsControl anchor ∧ g'.exitRoot ≠ some anchor ∧
      (g'.bundle? id anchor = some bundle ∨ g'.bundle? anchor id = some bundle) ∧
        bundle.edge = .fixedTiming distance ∧ distance < Word.count := by
  have hfrozen : g.IsFrozen id := (exists_iff_of_map_eq (h.units hid) fun _ => Iff.rfl).mp hfrozen
  obtain ⟨anchor, bundle, distance, hanchor, _, hbundle, hedge⟩ :=
    hg ((h.isData_iff hid).mp hdata) hfrozen
  refine ⟨anchor, bundle, distance, (h.isControl_iff hanchor.lt_size).mpr hanchor, fun hexit => ?_,
    ?_, hedge⟩
  · exact Nat.not_lt.mpr (hroot anchor hexit) hanchor.lt_size
  · rwa [h.edges hid, h.edges hanchor.lt_size]

/-! ## Lowered blocks -/

theorem grows_of_lowers (h : Lowering.Lowers program basic g g') : Grows program [basic] g g' where
  agrees := h.agrees
  size := h.size
  start := ⟨congrArg Prod.fst h.setting, congrArg (fun setting => setting.2.1) h.setting⟩
  parts := fun hid hunit => ⟨basic, List.mem_singleton_self _, (h.fresh hid hunit).toPartOf⟩
  holder := by
    rintro op ⟨basic', hbasic, hop⟩
    obtain rfl := List.mem_singleton.mp hbasic
    obtain ⟨id, _, hid⟩ := h.holder hop
    exact ⟨id, hid⟩
  others := fun hop => h.others (hop basic (List.mem_singleton_self _))
  intervals := by
    intro block _
    have hintervals := congrArg (fun setting => Table.get? setting.2.2.1 block) h.setting
    exact hintervals

theorem growing_of_lowers (hg : g.Growing) (h : Lowering.Lowers program basic g g')
    (hloop : ¬Lowering.LoopsBack program basic g) : g'.Growing where
  toWellFormed := h.toWellFormed
  held := h.held
  root := (h.agrees.isControl_iff hg.root.lt_size).mpr hg.root
  rootLead := by
    rw [(grows_of_lowers h).start.1]
    exact (h.agrees.leads_iff hg.root.lt_size).mpr hg.rootLead
  straight := (h.loop.resolve_right hloop).trans hg.straight
  unclosed := by
    have hroot := congrArg (fun setting => setting.2.2.2) h.setting
    exact hroot.trans hg.unclosed
  fresh := by
    intro id unit hunit
    by_cases hid : id < g.units.size
    · obtain ⟨unit', hunit', hbare⟩ := h.agrees.exists_unit hid hunit
      exact hg.fresh_of_bare_eq hunit' hbare
    · have hfresh := h.fresh (Nat.not_lt.mp hid) hunit
      exact ⟨hfresh.slot, hfresh.fused⟩
  braced := by
    intro id hdata hfrozen
    have hroot := congrArg (fun setting => setting.2.2.2) h.setting
    have hroot : g'.exitRoot = none := hroot.trans hg.unclosed
    by_cases hid : id < g.units.size
    · exact h.agrees.braced hg.braced (by simp [hroot]) hid hdata hfrozen
    · obtain ⟨unit, hunit, hfixed⟩ := hfrozen
      rw [(h.fresh (Nat.not_lt.mp hid) hunit).unfrozen] at hfixed
      cases hfixed
  nodup := by
    have hintervals := congrArg (fun setting => setting.2.2.1) h.setting
    have hintervals : g'.intervals = g.intervals := hintervals
    rw [hintervals]
    exact hg.nodup

end Graph

end SlotScheduling
