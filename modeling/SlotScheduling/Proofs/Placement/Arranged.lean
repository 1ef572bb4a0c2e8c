import SlotScheduling.Proofs.Placement.DataPath

/-!
# The whole data path pass

What the pass leaves behind in any well-formed graph whose control path has its
slots, and what that means for the graph of a single block.
-/

namespace SlotScheduling.DataPath

open SlotScheduling.Graph

variable {g g' : Graph} {block : BlockId} {entrySlot lowest : Nat} {id : UnitId}
  {options : SchedulingOptions} {now last : Journaled Graph} {result : PUnit}

/-! ## Classes -/

theorem classify_sound (h : classify options g id = .ok g') :
    g'.frame = g.frame ∧ (∀ id, g'.slot? id = g.slot? id) ∧
      ∀ id, g'.IsNeeded id ↔ g.IsNeeded id := by
  obtain ⟨unit, _, h⟩ := Checked.bind_eq_ok.mp h
  split at h
  · obtain rfl := Checked.pure_eq_ok.mp h
    exact ⟨rfl, fun _ => rfl, fun _ => Iff.rfl⟩
  · obtain ⟨valueClass, _, h⟩ := Checked.bind_eq_ok.mp h
    exact ⟨frame_changeUnit h fun _ => rfl, slot?_changeUnit h fun _ => rfl,
      fun other => isNeeded_changeUnit h fun _ => rfl⟩

theorem classifyAll_sound {ids : List UnitId} (h : ids.foldlM (classify options) g = .ok g') :
    g'.frame = g.frame ∧ (∀ id, g'.slot? id = g.slot? id) ∧
      ∀ id, g'.IsNeeded id ↔ g.IsNeeded id := by
  refine Checked.foldlM_induction (P := fun g' => g'.frame = g.frame ∧
    (∀ id, g'.slot? id = g.slot? id) ∧ ∀ id, g'.IsNeeded id ↔ g.IsNeeded id)
    (fun id _ before after hbefore hround => ?_) ⟨rfl, fun _ => rfl, fun _ => Iff.rfl⟩ h
  obtain ⟨hframe, hslots, hneeded⟩ := hbefore
  obtain ⟨hframe', hslots', hneeded'⟩ := classify_sound hround
  exact ⟨hframe'.trans hframe, fun id => (hslots' id).trans (hslots id),
    fun id => (hneeded' id).trans (hneeded id)⟩

/-! ## The pass -/

/-- The block of a unit has an entry on the control path. -/
def HasEntry (g : Graph) (block : BlockId) : Prop :=
  ∃ entry, g.holder? (.entry block) = some entry ∧ g.IsControl entry

/-- The second graph is the first one with its data path placed around the control path. -/
structure Arranged (g g' : Graph) : Prop where
  frame : g'.frame = g.frame
  control : ∀ {id}, g.IsControl id → g'.slot? id = g.slot? id
  placed : ∀ {id}, g.IsData id → ∃ slot, g'.slot? id = some slot ∧ slot < Word.count
  low : ∀ {id : UnitId} {unit : ScheduleUnit} {slot lowest : Nat}, g.units[id]? = some unit →
    unit.control = false → unit.fixedTiming = false → HasEntry g unit.block →
    HasControlPath lowest g → g'.slot? id = some slot → lowest ≤ slot
  started : ∀ {id entry : UnitId} {unit : ScheduleUnit} {first slot : Nat},
    g.units[id]? = some unit → unit.control = false → unit.fixedTiming = false →
    g'.IsNeeded id → g.holder? (.entry unit.block) = some entry → g.IsControl entry →
    g.slot? entry = some first → g'.slot? id = some slot → first ≤ slot
  dangling : ∀ {id : UnitId} {unit : ScheduleUnit}, g.units[id]? = some unit →
    unit.control = false → ¬g'.IsNeeded id →
    ∃ slot, g.endSlot unit.block = .ok (some slot) ∧ g'.slot? id = some slot
  frozen : ∀ {id}, g.IsData id → g.IsFrozen id → g'.IsNeeded id
  sources : ∀ {id source : UnitId} {unit : ScheduleUnit}, g.units[id]? = some unit →
    unit.control = true → source ∈ unit.deps.keys →
    (∀ {producer}, g.units[source]? = some producer → producer.block = unit.block) →
    g'.IsNeeded source
  deps : ∀ {id unit dep x}, g'.units[id]? = some unit → unit.control = false →
    unit.dangling = false → dep ∈ unit.deps.entries → g'.slot? id = some x →
    ∃ offset?, dep.2.edge.offset? (g'.interval? unit.block) = .ok offset? ∧
      ∀ offset ∈ offset?, ∀ y, g'.slot? dep.1 = some y →
        dep.2.edge.Admits offset ((x : Int) - (y : Int))
  uses : ∀ {id unit source bundle offset x y}, g'.units[id]? = some unit →
    unit.control = true → g'.IsData source → g'.IsNeeded source →
    unit.dep? source = some bundle →
    bundle.edge.offset? (g'.interval? unit.block) = .ok (some offset) →
    g'.slot? id = some x → g'.slot? source = some y →
    bundle.edge.Admits offset ((x : Int) - (y : Int))

section

variable {middle : Graph}

theorem Prepared.control_kept (hprepared : Prepared g middle) (hcontrol : HasControlPath lowest g)
    (hsolved : Solved middle g') (hid : g.IsControl id) : g'.slot? id = g.slot? id := by
  obtain ⟨slot, hslot, _⟩ := hcontrol id hid
  have hmiddle : middle.slot? id = some slot := (hprepared.control hid).trans hslot
  rw [hsolved.kept hmiddle, hslot]

/-- A block ends where its control path does. -/
theorem HasControlPath.endSlot {slot : Nat} (h : HasControlPath lowest g) (hg : g.Listed)
    (hend : g.endSlot block = .ok (some slot)) : lowest ≤ slot ∧ slot < Word.count := by
  obtain ⟨id, hid, unit, hunit, _, hslot⟩ := exists_unit_of_endSlot hend
  obtain ⟨slot', hslot', hrange⟩ := h id (hg.control.mp hid)
  obtain rfl := Option.some.inj (((slot?_eq hunit).trans hslot).symm.trans hslot')
  exact hrange

theorem Prepared.hasWords (hprepared : Prepared g middle) (hg : g.Listed)
    (hcontrol : HasControlPath lowest g) : HasWords middle := by
  intro id slot hslot
  obtain ⟨unit, hunit, _⟩ : ∃ unit, middle.units[id]? = some unit ∧ unit.slot = some slot :=
    Option.bind_eq_some_iff.mp hslot
  rcases isControl_or_isData (lt_size_of_getElem? hunit) with hid | hid
  · have hid := (isControl_iff_of_frame_eq hprepared.frame).mp hid
    obtain ⟨slot', hslot', _, hword⟩ := hcontrol id hid
    obtain rfl := Option.some.inj (((hprepared.control hid).symm.trans hslot).symm.trans hslot')
    exact hword
  · obtain ⟨unit', hunit', hdata⟩ := (isData_iff_of_frame_eq hprepared.frame).mp hid
    by_cases hneeds : middle.IsNeeded id
    · rw [hprepared.free ⟨unit', hunit', hdata⟩ hneeds] at hslot
      cases hslot
    · obtain ⟨slot', hend, hslot'⟩ := hprepared.dangling hunit' hdata hneeds
      obtain rfl := Option.some.inj (hslot.symm.trans hslot')
      exact (hcontrol.endSlot hg hend).2

theorem Prepared.data_placed (hprepared : Prepared g middle) (hg : g.Listed)
    (hcontrol : HasControlPath lowest g) (hsolved : Solved middle g') (hid : g.IsData id) :
    ∃ slot, g'.slot? id = some slot ∧ slot < Word.count := by
  by_cases hneeded : middle.IsNeeded id
  · have hdata := (isData_iff_of_frame_eq hprepared.frame).mpr hid
    exact hsolved.placed hdata (hprepared.free hid hneeded)
  · obtain ⟨unit, hunit, hdata⟩ := hid
    obtain ⟨slot, hend, hslot⟩ := hprepared.dangling hunit hdata hneeded
    exact ⟨slot, hsolved.kept hslot, (hcontrol.endSlot hg hend).2⟩

/-- A needed unit that is not frozen issues no earlier than the entry of its block. -/
theorem Prepared.started (hprepared : Prepared g middle) (hsolved : Solved middle g')
    {entry : UnitId} {unit : ScheduleUnit} {first slot : Nat} (hunit : g.units[id]? = some unit)
    (hdata : unit.control = false) (hunfrozen : unit.fixedTiming = false)
    (hneeded : middle.IsNeeded id) (hholder : g.holder? (.entry unit.block) = some entry)
    (hisControl : g.IsControl entry) (hfirst : g.slot? entry = some first)
    (hslot : g'.slot? id = some slot) : first ≤ slot := by
  obtain ⟨unit', hunit', hagree⟩ := exists_of_frame_eq hprepared.frame.symm hunit
  have hmiddle : middle.slot? entry = some first := (hprepared.control hisControl).trans hfirst
  have hstart : middle.startSlot unit'.block = .ok (some first) := by
    obtain ⟨head, hhead, hslot⟩ := Option.bind_eq_some_iff.mp hmiddle
    have hholders : middle.holder? = g.holder? := by
      have hholders := congrArg Graph.holder? hprepared.frame
      exact hholders
    rw [startSlot, ← hagree.block, hholders, hholder]
    simp only [unit_eq_ok.mpr hhead, Checked.ok_bind]
    rw [hslot]
    rfl
  have hfree := hprepared.free ⟨unit, hunit, hdata⟩ hneeded
  exact hsolved.started hunit' (hagree.control ▸ hdata) ((slot?_eq hunit').symm.trans hfree)
    (hagree.fixedTiming ▸ hunfrozen) hstart hslot

theorem Prepared.low (hprepared : Prepared g middle) (hg : g.Listed) (hsolved : Solved middle g')
    {unit : ScheduleUnit} {slot : Nat} (hunit : g.units[id]? = some unit)
    (hdata : unit.control = false) (hunfrozen : unit.fixedTiming = false)
    (hentry : HasEntry g unit.block) (hcontrol : HasControlPath lowest g)
    (hslot : g'.slot? id = some slot) : lowest ≤ slot := by
  by_cases hneeded : middle.IsNeeded id
  · obtain ⟨entry, hholder, hisControl⟩ := hentry
    obtain ⟨first, hfirst, hlow, _⟩ := hcontrol entry hisControl
    exact Nat.le_trans hlow (hprepared.started hsolved hunit hdata hunfrozen hneeded hholder
      hisControl hfirst hslot)
  · obtain ⟨slot', hend, hslot'⟩ := hprepared.dangling hunit hdata hneeded
    obtain rfl := Option.some.inj (hslot.symm.trans (hsolved.kept hslot'))
    exact (hcontrol.endSlot hg hend).1

theorem Prepared.arranged (hprepared : Prepared g middle) (hg : g.WellFormed)
    (hcontrol : HasControlPath lowest g)
    (hsources : ∀ {id : UnitId} {unit : ScheduleUnit} {source : UnitId},
      g.units[id]? = some unit → unit.control = true → source ∈ unit.deps.keys →
        (∀ {producer}, g.units[source]? = some producer → producer.block = unit.block) →
          middle.IsNeeded source)
    (hsolved : Solved middle g') : Arranged g g' := by
  have hframe := hsolved.frame.trans hprepared.frame
  have hmiddle := hg.of_outline_eq (outline_eq_of_skeleton_eq
    (skeleton_eq_of_frame_eq hprepared.frame))
  have hintervals : g'.interval? = middle.interval? :=
    interval?_of_frame_eq hsolved.frame
  refine ⟨hframe, hprepared.control_kept hcontrol hsolved,
    hprepared.data_placed hg.toListed hcontrol hsolved, hprepared.low hg.toListed hsolved,
    fun hunit hdata hunfrozen hneeded => hprepared.started hsolved hunit hdata hunfrozen
      (hsolved.needed.mp hneeded),
    fun hunit hdata hneeded => ?_,
    fun hid hfrozen => hsolved.needed.mpr (hprepared.frozen hid hfrozen),
    fun hunit hflag hsource hblock =>
      hsolved.needed.mpr (hsources hunit hflag hsource hblock), ?_, ?_⟩
  · obtain ⟨slot, hend, hslot⟩ :=
      hprepared.dangling hunit hdata fun h => hneeded (hsolved.needed.mpr h)
    exact ⟨slot, hend, hsolved.kept hslot⟩
  · intro id unit dep x hunit hdata hdangling hdep hx
    obtain ⟨unit', hunit', hagree⟩ := exists_of_frame_eq hsolved.frame hunit
    have hisData : g.IsData id :=
      (isData_iff_of_frame_eq hprepared.frame).mp ⟨unit', hunit', hagree.control ▸ hdata⟩
    have hfree := hprepared.free hisData (hsolved.needed.mp ⟨unit, hunit, hdangling⟩)
    rw [hintervals, hagree.block]
    exact hsolved.deps hunit' (hagree.control ▸ hdata) ((slot?_eq hunit').symm.trans hfree)
      (hagree.deps ▸ hdep) hx
  · intro id unit source bundle offset x y hunit hisControl hsource hneeded hdep hoffset hx hy
    obtain ⟨consumer, hconsumer, hagree⟩ := exists_of_frame_eq hsolved.frame hunit
    obtain ⟨unit', hunit', hagree'⟩ := exists_of_frame_eq hframe hunit
    have hkey : source ∈ unit.deps.keys := Table.mem_keys_iff.mpr ⟨bundle, hdep⟩
    have hsourceData := (isData_iff_of_frame_eq hframe).mp hsource
    have hfree := hprepared.free hsourceData (hsolved.needed.mp hneeded)
    obtain ⟨producer, hproducer, hproducerData⟩ :=
      (isData_iff_of_frame_eq hprepared.frame).mpr hsourceData
    -- The well-formed graph lists the control unit among the uses of its source.
    obtain ⟨producer', hproducer', huse⟩ :=
      hmiddle.linked.mp ⟨consumer, hconsumer, hagree.deps ▸ hkey⟩
    obtain rfl := Option.some.inj (hproducer.symm.trans hproducer')
    have hid : g.IsControl id := ⟨unit', hunit', hagree'.control ▸ hisControl⟩
    obtain ⟨slot, hslot, _⟩ := hcontrol id hid
    have hconsumerSlot : consumer.slot = some slot := by
      rw [← slot?_eq hconsumer, hprepared.control hid, hslot]
    rw [hintervals, hagree.block] at hoffset
    refine hsolved.uses hproducer hproducerData ((slot?_eq hproducer).symm.trans hfree) huse
      hconsumer (by simp [hconsumerSlot]) ?_ hoffset hy hx
    rw [ScheduleUnit.dep?, ← hagree.deps]
    exact hdep

end

theorem Arranged.classify (h : Arranged g g') {ids : List UnitId} {g'' : Graph}
    (hclassify : ids.foldlM (classify options) g' = .ok g'') : Arranged g g'' := by
  obtain ⟨hframe, hslots, hneeded⟩ := classifyAll_sound hclassify
  have hintervals : g''.interval? = g'.interval? :=
    interval?_of_frame_eq hframe
  refine ⟨hframe.trans h.frame, fun hid => (hslots _).trans (h.control hid), ?_, ?_, ?_,
    fun {id} {unit} hunit hdata hneeds => ?_,
    fun hid hfrozen => (hneeded _).mpr (h.frozen hid hfrozen), fun hunit hflag hsource hblock =>
      (hneeded _).mpr (h.sources hunit hflag hsource hblock), ?_, ?_⟩
  · intro id hid
    rw [hslots]
    exact h.placed hid
  · intro id unit slot lowest hunit hdata hunfrozen hentry hcontrol hslot
    rw [hslots] at hslot
    exact h.low hunit hdata hunfrozen hentry hcontrol hslot
  · intro id entry unit first slot hunit hdata hunfrozen hneeds hholder hisControl hfirst hslot
    rw [hslots] at hslot
    exact h.started hunit hdata hunfrozen ((hneeded _).mp hneeds) hholder hisControl hfirst hslot
  · rw [hslots]
    exact h.dangling hunit hdata fun h => hneeds ((hneeded _).mpr h)
  · intro id unit dep x hunit hdata hdangling hdep hx
    obtain ⟨unit', hunit', hagree⟩ := exists_of_frame_eq hframe hunit
    obtain ⟨unit'', hunit'', hdangling'⟩ := (hneeded id).mp ⟨unit, hunit, hdangling⟩
    obtain rfl := Option.some.inj (hunit'.symm.trans hunit'')
    rw [hslots] at hx
    simp only [hintervals, hagree.block, hslots]
    exact h.deps hunit' (hagree.control ▸ hdata) hdangling' (hagree.deps ▸ hdep) hx
  · intro id unit source bundle offset x y hunit hcontrol hsource hneeds hdep hoffset hx hy
    obtain ⟨unit', hunit', hagree⟩ := exists_of_frame_eq hframe hunit
    rw [hintervals, hagree.block] at hoffset
    rw [hslots] at hx hy
    rw [ScheduleUnit.dep?, hagree.deps] at hdep
    exact h.uses hunit' (hagree.control ▸ hcontrol) ((isData_iff_of_frame_eq hframe).mp hsource)
      ((hneeded _).mp hneeds) hdep hoffset hx hy

theorem HasEntry.of_frame_eq (h : HasEntry g block) (hframe : g'.frame = g.frame) :
    HasEntry g' block := by
  obtain ⟨entry, hentry, hcontrol⟩ := h
  refine ⟨entry, ?_, (isControl_iff_of_frame_eq hframe).mpr hcontrol⟩
  have hholders := congrArg (fun g : Graph => g.holder? (.entry block)) hframe
  exact hholders.trans hentry

/-- What the control path was before does not matter beyond its slots. -/
theorem Arranged.of_frame_eq {before : Graph} (h : Arranged before g') (hg : g.Listed)
    (hframe : before.frame = g.frame)
    (hslots : ∀ {id}, g.IsControl id → before.slot? id = g.slot? id) : Arranged g g' where
  frame := h.frame.trans hframe
  control := fun hid =>
    (h.control ((isControl_iff_of_frame_eq hframe).mpr hid)).trans (hslots hid)
  placed := fun hid => h.placed ((isData_iff_of_frame_eq hframe).mpr hid)
  low := by
    intro id unit slot lowest hunit hdata hunfrozen hentry hcontrol hslot
    obtain ⟨unit', hunit', hagree⟩ := exists_of_frame_eq hframe.symm hunit
    rw [hagree.block] at hentry
    exact h.low hunit' (hagree.control ▸ hdata) (hagree.fixedTiming ▸ hunfrozen)
      (hentry.of_frame_eq hframe) (hcontrol.of_frame_eq hframe hslots) hslot
  started := by
    intro id entry unit first slot hunit hdata hunfrozen hneeded hholder hisControl hfirst hslot
    obtain ⟨unit', hunit', hagree⟩ := exists_of_frame_eq hframe.symm hunit
    have hholders := congrArg (fun g : Graph => g.holder? (.entry unit.block)) hframe
    refine h.started hunit' (hagree.control ▸ hdata) (hagree.fixedTiming ▸ hunfrozen) hneeded
      ?_ ((isControl_iff_of_frame_eq hframe).mpr hisControl) ((hslots hisControl).trans hfirst)
      hslot
    rw [← hagree.block]
    exact hholders.trans hholder
  dangling := by
    intro id unit hunit hdata hneeded
    obtain ⟨unit', hunit', hagree⟩ := exists_of_frame_eq hframe.symm hunit
    rw [← endSlot_eq_of_frame_eq hg hframe hslots, hagree.block]
    exact h.dangling hunit' (hagree.control ▸ hdata) hneeded
  frozen := fun hid hfrozen => h.frozen ((isData_iff_of_frame_eq hframe).mpr hid)
    ((isFrozen_of_frame_eq hframe).mpr hfrozen)
  sources := by
    intro id source unit hunit hcontrol hsource hblock
    obtain ⟨unit', hunit', hagree⟩ := exists_of_frame_eq hframe.symm hunit
    refine h.sources hunit' (hagree.control ▸ hcontrol) (hagree.deps ▸ hsource)
      fun {producer} hproducer => ?_
    obtain ⟨producer', hproducer', hagree'⟩ := exists_of_frame_eq hframe hproducer
    rw [hagree'.block, hblock hproducer', hagree.block]
  deps := h.deps
  uses := h.uses

theorem reset_undangle {cleared undangled : Graph} (hg : g.Listed)
    (hreset : g.resetData = .ok cleared)
    (hundangle : cleared.controlUnits.foldlM undangle cleared = .ok undangled) :
    undangled.frame = g.frame ∧ (∀ {id}, g.IsControl id → undangled.slot? id = g.slot? id) ∧
      (∀ {id}, g.IsData id → undangled.slot? id = none) ∧
      ∀ {id : UnitId} {unit : ScheduleUnit} {source : UnitId}, g.units[id]? = some unit →
        unit.control = true → source ∈ unit.deps.keys →
          (∀ {producer}, g.units[source]? = some producer → producer.block = unit.block) →
            undangled.IsNeeded source := by
  obtain ⟨hframe, hcontrol, hdata⟩ := resetData_sound hg hreset
  obtain ⟨hundangles, hneeded⟩ := undangleAll_sound hundangle
  have hcleared := hg.of_outline_eq (outline_eq_of_skeleton_eq (skeleton_eq_of_frame_eq hframe))
  refine ⟨hundangles.frame.trans hframe, fun hid => ?_, fun hid => ?_, ?_⟩
  · exact (hundangles.slots _).trans (hcontrol hid)
  · exact (hundangles.slots _).trans (hdata hid)
  · intro id unit source hunit hflag hsource hblock
    obtain ⟨unit', hunit', hagree⟩ := exists_of_frame_eq hframe.symm hunit
    have hmem : id ∈ cleared.controlUnits :=
      hcleared.control.mpr ((isControl_iff_of_frame_eq hframe).mpr ⟨unit, hunit, hflag⟩)
    refine hneeded id hmem hunit' source (hagree.deps ▸ hsource) fun {producer} hproducer => ?_
    obtain ⟨producer', hproducer', hagree'⟩ := exists_of_frame_eq hframe hproducer
    rw [hagree'.block, hblock hproducer', hagree.block]

/-- What the pass goes through: a graph in which just the units that the control path needs do
not dangle, then one in which the others are placed, and then a solution of the system of that. -/
structure Stages (options : SchedulingOptions) (g undangled placed solved g' : Graph)
    (system : ConstraintSystem) : Prop where
  frame : undangled.frame = g.frame
  control : ∀ {id}, g.IsControl id → undangled.slot? id = g.slot? id
  sources : ∀ {id : UnitId} {unit : ScheduleUnit} {source : UnitId}, g.units[id]? = some unit →
    unit.control = true → source ∈ unit.deps.keys →
      (∀ {producer}, g.units[source]? = some producer → producer.block = unit.block) →
        undangled.IsNeeded source
  prepared : Prepared undangled placed
  builds : build placed options = .ok system
  solves : 0 < system.unknowns.size → ∃ slots,
    (if options.dataPathLate then system.latest else system.earliest) = .ok slots ∧
      placed.placeAll slots = .ok solved
  skips : ¬0 < system.unknowns.size → solved = placed
  classes : solved.dataUnits.foldlM (DataPath.classify options) solved = .ok g'

theorem exists_stages (hg : now.state.WellFormed) (h : schedule options now = .ok result last) :
    ∃ undangled placed solved system,
      Stages options now.state undangled placed solved last.state system := by
  simp only [schedule, Step.updateChecked_bind_eq_ok] at h
  obtain ⟨cleared, hreset, undangled, hundangle, h⟩ := h
  rw [Step.current_bind] at h
  obtain ⟨count, placed, hplace, h⟩ := Step.bind_eq_ok.mp h
  simp only [Step.current_bind, Step.lift_bind_eq_ok, Step.note_bind] at h
  obtain ⟨system, hsystem, h⟩ := h
  obtain ⟨hframe, hslots, hfree, hneeded⟩ := reset_undangle hg.toListed hreset hundangle
  have hundangled := hg.of_outline_eq (outline_eq_of_skeleton_eq (skeleton_eq_of_frame_eq hframe))
  have hprepared : Prepared undangled placed.state :=
    placeAllDangling_sound hundangled.toListed
      (fun hid => hfree ((isData_iff_of_frame_eq hframe).mp hid)) hplace
  split at h
  next hpos =>
    simp only [Step.lift_bind_eq_ok, Step.updateChecked_bind_eq_ok,
      Step.updateChecked_eq_ok] at h
    obtain ⟨slots, hsolve, solved, hsolution, final, hclassify, rfl⟩ := h
    exact ⟨undangled, placed.state, solved, system, hframe, hslots, hneeded, hprepared, hsystem,
      fun _ => ⟨slots, Checked.orMalformed_eq_ok.mp hsolve, hsolution⟩,
      fun hnot => absurd hpos hnot, hclassify⟩
  next hnot =>
    obtain ⟨final, hclassify, rfl⟩ := Step.updateChecked_eq_ok.mp h
    exact ⟨undangled, placed.state, placed.state, system, hframe, hslots, hneeded, hprepared,
      hsystem, fun hpos => absurd hpos hnot, fun _ => rfl, hclassify⟩

theorem schedule_arranged (hg : now.state.WellFormed) (hcontrol : HasControlPath lowest now.state)
    (hbraced : Braced now.state) (h : schedule options now = .ok result last) :
    Arranged now.state last.state := by
  obtain ⟨undangled, placed, solved, system, hstages⟩ := exists_stages hg h
  have hkeeps : ∀ {g g' : Graph}, g'.frame = g.frame → g.WellFormed → g'.WellFormed :=
    fun hframe hg => hg.of_outline_eq (outline_eq_of_skeleton_eq (skeleton_eq_of_frame_eq hframe))
  have hundangled := hkeeps hstages.frame hg
  have hpath : HasControlPath lowest undangled :=
    hcontrol.of_frame_eq hstages.frame hstages.control
  have hprepared := hstages.prepared
  have hundangledBraced : Braced undangled := hbraced.of_frame_eq hstages.frame
  have hplacedBraced : Braced placed := hundangledBraced.of_frame_eq hprepared.frame
  have hsolved : Solved placed solved :=
    solve_sound (hkeeps hprepared.frame hundangled)
      (hpath.of_frame_eq hprepared.frame hprepared.control)
      (hprepared.hasWords hundangled.toListed hpath) hplacedBraced hstages.builds hstages.solves
      hstages.skips
  have hsources : ∀ {id : UnitId} {unit : ScheduleUnit} {source : UnitId},
      undangled.units[id]? = some unit → unit.control = true → source ∈ unit.deps.keys →
        (∀ {producer}, undangled.units[source]? = some producer → producer.block = unit.block) →
          placed.IsNeeded source := by
    intro id unit source hunit hflag hsource hblock
    obtain ⟨unit', hunit', hagree⟩ := exists_of_frame_eq hstages.frame hunit
    refine hprepared.needed (hstages.sources hunit' (hagree.control ▸ hflag)
      (hagree.deps ▸ hsource) fun {producer} hproducer => ?_)
    obtain ⟨producer', hproducer', hagree'⟩ := exists_of_frame_eq hstages.frame.symm hproducer
    rw [hagree'.block, hblock hproducer', hagree.block]
  have harranged := (hprepared.arranged hundangled hpath hsources hsolved).classify hstages.classes
  exact harranged.of_frame_eq hg.toListed hstages.frame hstages.control

/-! ## Single blocks -/

/-- The second graph is the first one with its data path placed between a bound
and the control path. -/
structure Finished (lowest : Nat) (g g' : Graph) : Prop where
  frame : g'.frame = g.frame
  control : ∀ {id}, g.IsControl id → g'.slot? id = g.slot? id
  placed : ∀ {id}, g.IsData id → ∃ slot, g'.slot? id = some slot ∧ lowest ≤ slot
  deps : ∀ {id unit dep x}, g'.units[id]? = some unit → unit.control = false →
    unit.dangling = false → dep ∈ unit.deps.entries → g'.slot? id = some x →
    ∃ offset?, dep.2.edge.offset? (g'.interval? unit.block) = .ok offset? ∧
      ∀ offset ∈ offset?, ∀ y, g'.slot? dep.1 = some y → offset ≤ (x : Int) - (y : Int)
  uses : ∀ {id unit source bundle offset x y}, g'.units[id]? = some unit →
    unit.control = true → g'.IsData source → unit.dep? source = some bundle →
    bundle.edge.offset? (g'.interval? unit.block) = .ok (some offset) →
    g'.slot? id = some x → g'.slot? source = some y → offset ≤ (x : Int) - (y : Int)

/-- In the graph of a single block nothing is frozen, and whatever a control unit
depends on is needed. -/
theorem Arranged.finished (h : Arranged g g') (hg : g.OfBlock block entrySlot)
    (hcontrol : HasControlPath lowest g) : Finished lowest g g' where
  frame := h.frame
  control := h.control
  placed := by
    intro id hid
    obtain ⟨slot, hslot, _⟩ := h.placed hid
    obtain ⟨unit, hunit, hdata⟩ := hid
    have hentry : HasEntry g unit.block := by
      rw [(hg.units hunit).block]
      exact ⟨_, hg.entry, hg.root⟩
    exact ⟨slot, hslot, h.low hunit hdata (hg.units hunit).unfrozen hentry hcontrol hslot⟩
  deps := by
    intro id unit dep x hunit hdata hneeded hdep hx
    obtain ⟨offset?, hoffset, hmeets⟩ := h.deps hunit hdata hneeded hdep hx
    exact ⟨offset?, hoffset, fun offset hsome y hy => (hmeets offset hsome y hy).le⟩
  uses := by
    intro id unit source bundle offset x y hunit hcontrol hsource hdep hoffset hx hy
    obtain ⟨unit', hunit', hagree⟩ := exists_of_frame_eq h.frame hunit
    have hkey : source ∈ unit'.deps.keys :=
      Table.mem_keys_iff.mpr ⟨bundle, hagree.deps ▸ hdep⟩
    have hneeded := h.sources hunit' (hagree.control ▸ hcontrol) hkey fun hproducer =>
      (hg.units hproducer).block.trans (hg.units hunit').block.symm
    exact (h.uses hunit hcontrol hsource hneeded hdep hoffset hx hy).le

theorem braced_of_ofBlock (hg : g.OfBlock block entrySlot) : Braced g := by
  rintro id _ ⟨unit, hunit, hfixed⟩
  rw [(hg.units hunit).unfrozen] at hfixed
  cases hfixed

theorem schedule_finished (hg : now.state.OfBlock block entrySlot)
    (hcontrol : HasControlPath lowest now.state)
    (h : schedule options now = .ok result last) : Finished lowest now.state last.state :=
  (schedule_arranged hg.toWellFormed hcontrol (braced_of_ofBlock hg) h).finished hg hcontrol

end SlotScheduling.DataPath
