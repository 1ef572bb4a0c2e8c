import SlotScheduling.Proofs.Placement.Arranged
import SlotScheduling.Proofs.Placement.DataFitting
import SlotScheduling.Proofs.Reachable

/-!
# The best placement of the data path

Around any control path whose units have their slots, the data-path units that do
not dangle are placed as one system: whatever is found fits, and nothing that fits
is later for any unit when they are placed late, or earlier when they are placed
early.  This takes neither an interval of the blocks nor units that are not frozen.
-/

namespace SlotScheduling

namespace Graph

/-- The slot of a unit as a number, zero for a unit without one. -/
def slotValue (g : Graph) (id : UnitId) : Int := ((g.slot? id).getD 0 : Nat)

theorem slotValue_eq {g : Graph} {id : UnitId} {slot : Nat} (h : g.slot? id = some slot) :
    g.slotValue id = slot := by
  simp [slotValue, h]

end Graph

namespace DataPath

open ConstraintSystem SlotScheduling.Graph

variable {g g' : Graph} {options : SchedulingOptions} {id : UnitId} {lowest : Nat}
  {system : ConstraintSystem} {now last : Journaled Graph} {result : PUnit}
  {values : UnitId → Int}

/-- The other value is no better: not a later one if units are placed late, and else not an
earlier one. -/
def NoWorse (options : SchedulingOptions) (value other : Int) : Prop :=
  if options.dataPathLate then other ≤ value else value ≤ other

/-- The floating units have slots in which they fit, and no assignment that fits is better for
one of them. -/
structure Best (options : SchedulingOptions) (g : Graph) : Prop where
  placed : ∀ {id}, g.IsFloating id → ∃ slot, g.slot? id = some slot
  fits : Fits options g g.slotValue
  noWorse : ∀ {values}, Fits options g values → ∀ {id}, g.IsFloating id →
    NoWorse options (g.slotValue id) (values id)

/-- The second graph is the first one with its floating units in their best slots. -/
structure Improves (options : SchedulingOptions) (g g' : Graph) : Prop where
  frame : g'.frame = g.frame
  needed : ∀ {id}, g'.IsNeeded id ↔ g.IsNeeded id
  kept : ∀ {id}, ¬g.IsFloating id → g'.slot? id = g.slot? id
  placed : ∀ {id}, g.IsFloating id → ∃ slot, g'.slot? id = some slot
  fits : Fits options g g'.slotValue
  noWorse : ∀ {values}, Fits options g values → ∀ {id}, g.IsFloating id →
    NoWorse options (g'.slotValue id) (values id)

/-! ## The solution -/

theorem Describes.closed {base sys : ConstraintSystem} (h : Describes base g options sys) :
    sys.Closed :=
  h.grows.closed h.free.closed

/-- The solver finds the best solution. -/
theorem best_of_solution {sys : ConstraintSystem} {slots : List (UnitId × Nat)}
    (hclosed : sys.Closed) (hlight : Arc.Light sys.arcs)
    (h : (if options.dataPathLate then sys.latest else sys.earliest) = .ok slots) :
    slots.map Prod.fst = sys.unknowns.toList ∧ sys.Satisfies (valuesOf slots) ∧
      ∀ values, sys.Satisfies values → ∀ index < sys.unknowns.size,
        NoWorse options (valuesOf slots index) (values index) := by
  unfold NoWorse
  split at h
  next hlate =>
    simp only [hlate, if_true]
    exact ⟨(latest_eq_ok hclosed h).2.1, latest_greatest hclosed hlight h⟩
  next hearly =>
    simp only [hearly]
    exact ⟨(earliest_eq_ok hclosed h).2.1, earliest_least hclosed hlight h⟩

theorem improves_placeAll {base sys : ConstraintSystem} {slots : List (UnitId × Nat)}
    (hdescribes : Describes base g options sys) (hg : g.WellFormed) (hrange : g.InRange)
    (hsplit : Split g) (hlight : Arc.Light sys.arcs)
    (hslots : (if options.dataPathLate then sys.latest else sys.earliest) = .ok slots)
    (hplace : g.placeAll slots = .ok g') : Improves options g g' := by
  obtain ⟨hunits, hsolves, hbest⟩ := best_of_solution hdescribes.closed hlight hslots
  rw [hdescribes.grows.keepsUnits] at hunits hbest
  have hplaces := places_placeAll (g := g) hdescribes.free.nodup hunits hplace
  have hfloats : ∀ {id : UnitId}, g.IsFloating id → ∃ index, base.variableOf? id = some index :=
    fun hid => hdescribes.free.exists_index (hg.data.mpr hid.1) (hsplit.floating hid)
  have hkept : ∀ {id : UnitId}, ¬g.IsFloating id → g'.slot? id = g.slot? id := by
    intro id hid
    refine hplaces.slot?_eq (hdescribes.free.variableOf?_eq_none ?_)
    rintro ⟨hmem, hnone⟩
    obtain ⟨slot, hslot⟩ := hsplit.others (hg.data.mp hmem).lt_size hid
    rw [hnone] at hslot
    cases hslot
  have hplaced : ∀ {id : UnitId}, g.IsFloating id → ∃ slot, g'.slot? id = some slot := by
    intro id hid
    obtain ⟨index, hindex⟩ := hfloats hid
    exact hplaces.exists_slot hindex
  have hvalue : ∀ {id : UnitId}, id < g.units.size →
      base.valueOf? g (valuesOf slots) id = some (g'.slotValue id) := by
    intro id hid
    obtain ⟨slot, hslot⟩ : ∃ slot, g'.slot? id = some slot := by
      by_cases hfloat : g.IsFloating id
      · exact hplaced hfloat
      · rw [hkept hfloat]
        exact hsplit.others hid hfloat
    rw [hplaces.valueOf?_eq hslot, slotValue_eq hslot]
  refine ⟨frame_placeAll hplace, isNeeded_placeAll hplace, hkept, hplaced,
    hdescribes.fits hg hsplit hsolves hvalue, fun {values} hfits {id} hid => ?_⟩
  obtain ⟨index, hindex⟩ := hfloats hid
  have hle := hbest _ (hdescribes.satisfies_of_fits hrange hsplit
    (hdescribes.readable hsolves) hfits) index (lt_size_of_variableOf? hindex)
  rw [valuesIn_eq hindex] at hle
  have hsame := hvalue hid.1.lt_size
  rw [valueOf?, hindex] at hsame
  rwa [Option.some.inj hsame] at hle

/-! ## The pass -/

theorem isFloating_congr (hframe : g'.frame = g.frame)
    (hneeded : ∀ {id}, g'.IsNeeded id ↔ g.IsNeeded id) : g'.IsFloating id ↔ g.IsFloating id := by
  rw [IsFloating, IsFloating, isData_iff_of_frame_eq hframe, hneeded]

theorem fixedSlot?_congr (hframe : g'.frame = g.frame)
    (hneeded : ∀ {id}, g'.IsNeeded id ↔ g.IsNeeded id)
    (hslots : ∀ {id}, ¬g.IsFloating id → g'.slot? id = g.slot? id) :
    g'.fixedSlot? = g.fixedSlot? := by
  funext id
  by_cases hid : g.IsFloating id
  · rw [fixedSlot?_of_isFloating hid,
      fixedSlot?_of_isFloating ((isFloating_congr hframe hneeded).mpr hid)]
  · have hid' : ¬g'.IsFloating id := fun h => hid ((isFloating_congr hframe hneeded).mp h)
    rw [fixedSlot?_of_not_isFloating hid, fixedSlot?_of_not_isFloating hid', hslots hid]

/-- What fits depends on no slot of a floating unit. -/
theorem Fits.of_frame_eq (h : Fits options g values) (hg : g.Listed) (hframe : g'.frame = g.frame)
    (hneeded : ∀ {id}, g'.IsNeeded id ↔ g.IsNeeded id)
    (hslots : ∀ {id}, ¬g.IsFloating id → g'.slot? id = g.slot? id) : Fits options g' values where
  fixed := by
    rw [fixedSlot?_congr hframe hneeded hslots]
    exact h.fixed
  edges := by
    intro user source consumer bundle hconsumer hdep hfloats gap hgap
    obtain ⟨consumer', hconsumer', hagree⟩ := exists_of_frame_eq hframe hconsumer
    rw [isFloating_congr hframe hneeded, isFloating_congr hframe hneeded] at hfloats
    rw [interval?_of_frame_eq hframe, hagree.block] at hgap
    rw [ScheduleUnit.dep?, hagree.deps] at hdep
    exact h.edges hconsumer' hdep hfloats gap hgap
  window := by
    intro id unit hunit hid hunfrozen
    obtain ⟨unit', hunit', hagree⟩ := exists_of_frame_eq hframe hunit
    have hentry : g'.entrySlot = g.entrySlot := entrySlot_of_frame_eq hframe
    have hholders := congrArg (fun g : Graph => g.holder? (.entry unit.block)) hframe
    have hholder : g'.holder? (.entry unit.block) = g.holder? (.entry unit.block) := hholders
    have hwindow := h.window hunit' ((isFloating_congr hframe hneeded).mp hid)
      (hagree.fixedTiming ▸ hunfrozen)
    rw [firstSlot, fixedSlot?_congr hframe hneeded hslots, hentry, hholder, hagree.block,
      endSlot_eq_of_frame_eq hg hframe fun hcontrol => hslots fun hfloat =>
        hcontrol.not_isData hfloat.1]
    exact hwindow

/-- Once the units that dangle are placed, those that float are the only ones without slots. -/
theorem Prepared.split (h : Prepared g g') (hcontrol : HasControlPath lowest g) : Split g' where
  floating := fun hid => h.free ((isData_iff_of_frame_eq h.frame).mp hid.1) hid.2
  others := by
    intro id hid hnot
    rcases isControl_or_isData hid with hisControl | hisData
    · have hisControl := (isControl_iff_of_frame_eq h.frame).mp hisControl
      obtain ⟨slot, hslot, _⟩ := hcontrol id hisControl
      exact ⟨slot, (h.control hisControl).trans hslot⟩
    · obtain ⟨unit, hunit, hdata⟩ := (isData_iff_of_frame_eq h.frame).mp hisData
      obtain ⟨slot, _, hslot⟩ := h.dangling hunit hdata fun hneeds => hnot ⟨hisData, hneeds⟩
      exact ⟨slot, hslot⟩

/-- Without variables nothing floats. -/
theorem Describes.not_isFloating {base sys : ConstraintSystem} (h : Describes base g options sys)
    (hg : g.WellFormed) (hsplit : Split g) (hnone : ¬0 < sys.unknowns.size) :
    ¬g.IsFloating id := by
  intro hid
  obtain ⟨index, hindex⟩ := h.free.exists_index (hg.data.mpr hid.1) (hsplit.floating hid)
  have hlt := lt_size_of_variableOf? hindex
  rw [h.grows.keepsUnits] at hnone
  omega

theorem fits_slotValue_of_not_isFloating (h : ∀ {id}, ¬g.IsFloating id) :
    Fits options g g.slotValue where
  fixed := fun hslot => slotValue_eq ((fixedSlot?_of_not_isFloating h).symm.trans hslot)
  edges := fun _ _ hfloats => absurd hfloats (not_or.mpr ⟨h, h⟩)
  window := fun _ hid => absurd hid h

theorem improves_self (h : ∀ {id}, ¬g.IsFloating id) : Improves options g g where
  frame := rfl
  needed := Iff.rfl
  kept := fun _ => rfl
  placed := fun hid => absurd hid h
  fits := fits_slotValue_of_not_isFloating h
  noWorse := fun _ _ hid => absurd hid h

theorem Stages.improves {undangled placed solved : Graph}
    (h : Stages options g undangled placed solved g' system) (hg : g.WellFormed)
    (hrange : g.InRange) (hcontrol : HasControlPath lowest g) : Improves options placed solved := by
  have hundangled := hg.of_outline_eq (outline_eq_of_skeleton_eq (skeleton_eq_of_frame_eq h.frame))
  have hpath : HasControlPath lowest undangled := hcontrol.of_frame_eq h.frame h.control
  have hframe := h.prepared.frame
  have hplaced :=
    hundangled.of_outline_eq (outline_eq_of_skeleton_eq (skeleton_eq_of_frame_eq hframe))
  have hrange : placed.InRange := (hrange.of_frame_eq h.frame).of_frame_eq hframe
  have hsplit := h.prepared.split hpath
  have hwords : HasWords placed := h.prepared.hasWords hundangled.toListed hpath
  obtain ⟨base, hdescribes⟩ := exists_describes hwords h.builds
  by_cases hpos : 0 < system.unknowns.size
  · obtain ⟨slots, hslots, hplace⟩ := h.solves hpos
    exact improves_placeAll hdescribes hplaced hrange hsplit (light_build hwords hrange h.builds)
      hslots hplace
  · obtain rfl := h.skips hpos
    exact improves_self (hdescribes.not_isFloating hplaced hsplit hpos)

theorem Improves.classify {ids : List UnitId} {solved : Graph} (h : Improves options g solved)
    (hclassify : ids.foldlM (classify options) solved = .ok g') : Improves options g g' := by
  obtain ⟨hframe, hslots, hneeded⟩ := classifyAll_sound hclassify
  have hvalues : g'.slotValue = solved.slotValue := funext fun id => by rw [slotValue, hslots]; rfl
  refine ⟨hframe.trans h.frame, fun {id} => (hneeded id).trans h.needed, fun {id} hid => ?_,
    fun {id} hid => ?_, hvalues ▸ h.fits, hvalues ▸ h.noWorse⟩
  · rw [hslots, h.kept hid]
  · rw [hslots]
    exact h.placed hid

theorem Improves.best (h : Improves options g g') (hg : g.Listed) : Best options g' := by
  have hg' := hg.of_outline_eq (outline_eq_of_skeleton_eq (skeleton_eq_of_frame_eq h.frame))
  have hfloats : ∀ {id}, g'.IsFloating id ↔ g.IsFloating id := isFloating_congr h.frame h.needed
  refine ⟨fun hid => h.placed (hfloats.mp hid), h.fits.of_frame_eq hg h.frame h.needed h.kept,
    fun {values} hfits {id} hid => h.noWorse ?_ (hfloats.mp hid)⟩
  exact hfits.of_frame_eq hg' h.frame.symm h.needed.symm fun hid =>
    (h.kept fun hfloat => hid (hfloats.mpr hfloat)).symm

theorem Stages.best {undangled placed solved : Graph}
    (h : Stages options g undangled placed solved g' system) (hg : g.WellFormed)
    (hrange : g.InRange) (hcontrol : HasControlPath 0 g) : Best options g' := by
  have hframe := h.prepared.frame.trans h.frame
  have hplaced := hg.of_outline_eq (outline_eq_of_skeleton_eq (skeleton_eq_of_frame_eq hframe))
  exact ((h.improves hg hrange hcontrol).classify h.classes).best hplaced.toListed

/-- Around a control path that has its slots, the pass keeps everything but the slots, the
flags and the classes of the data path.  It leaves the units that dangle in the last slots of
their blocks, and the others in the best slots that there are around those of all other units. -/
theorem schedule_best (hg : now.state.WellFormed) (hrange : now.state.InRange)
    (hcontrol : HasControlPath 0 now.state) (h : schedule options now = .ok result last) :
    last.state.frame = now.state.frame ∧
      (∀ {id}, now.state.IsControl id → last.state.slot? id = now.state.slot? id) ∧
      (∀ {id unit}, last.state.units[id]? = some unit → unit.control = false →
        unit.dangling = true → ∃ slot, last.state.endSlot unit.block = .ok (some slot) ∧
          last.state.slot? id = some slot) ∧
      Best options last.state := by
  obtain ⟨undangled, placed, solved, system, hstages⟩ := exists_stages hg h
  have himproves := (hstages.improves hg hrange hcontrol).classify hstages.classes
  have hundangled :=
    hg.of_outline_eq (outline_eq_of_skeleton_eq (skeleton_eq_of_frame_eq hstages.frame))
  have hprepared := hstages.prepared
  have hplaced :=
    hundangled.of_outline_eq (outline_eq_of_skeleton_eq (skeleton_eq_of_frame_eq hprepared.frame))
  have hframe : last.state.frame = undangled.frame := himproves.frame.trans hprepared.frame
  have hkept : ∀ {id}, undangled.IsControl id → last.state.slot? id = undangled.slot? id := by
    intro id hid
    rw [himproves.kept fun hfloat =>
      ((isControl_iff_of_frame_eq hprepared.frame).mpr hid).not_isData hfloat.1]
    exact hprepared.control hid
  refine ⟨hframe.trans hstages.frame, fun {id} hid => ?_, fun {id unit} hunit hdata hdangling => ?_,
    himproves.best hplaced.toListed⟩
  · rw [hkept ((isControl_iff_of_frame_eq hstages.frame).mpr hid), hstages.control hid]
  · obtain ⟨unit', hunit', hagree⟩ := exists_of_frame_eq hframe hunit
    have hnot : ¬placed.IsNeeded id := by
      rw [← himproves.needed, IsNeeded, hunit]
      simp [hdangling]
    obtain ⟨slot, hend, hslot⟩ := hprepared.dangling hunit' (hagree.control ▸ hdata) hnot
    refine ⟨slot, ?_, (himproves.kept fun hfloat => hnot hfloat.2).trans hslot⟩
    rw [endSlot_eq_of_frame_eq hundangled.toListed hframe hkept, hagree.block]
    exact hend

/-- A pipelined block with its control path in place.  The first of two results is carried over
to the next iteration, and the branch waits for the second one. -/
def carriedResult : Graph :=
  (start 0 1).after [
    .createUnit (.op 3) 0 .trivial false 2,
    .createUnit (.op 4) 0 .trivial false 1,
    .createUnit (.op 5) 0 .trivial true 0,
    .addDep 1 0 (.value 0),
    .addDep 2 1 (.value 2),
    .addDep 1 2 (.loopCarried 1 1),
    .addDep 3 2 (.value 1),
    .setInterval 0 4,
    .place 0 1,
    .place 3 8]

theorem schedule_best_carriedResult :
    ∃ last, schedule {} ⟨carriedResult, {}⟩ = .ok ⟨⟩ last ∧
      last.state.slots = [some 1, some 5, some 7, some 8] ∧ Best {} last.state := by
  have hreachable : carriedResult.Reachable := (Reachable.start 0 1).after (by simp [Call.merged])
  have hg : (⟨carriedResult, {}⟩ : Journaled Graph).state.WellFormed :=
    hreachable.coherent.toWellFormed
  have hunits : ∀ unit ∈ carriedResult.units.toList, unit.InRange := by decide +kernel
  have hrange : carriedResult.InRange :=
    ⟨by decide +kernel, fun hunit =>
      hunits _ (Array.mem_toList_iff.mpr (Array.mem_of_getElem? hunit))⟩
  have hslots : ∀ id ∈ carriedResult.controlUnits,
      ∃ slot ∈ carriedResult.slot? id, 0 ≤ slot ∧ slot < Word.count := by decide +kernel
  have hsucceeds : (schedule {} >>= fun _ => Step.current).succeeds ⟨carriedResult, {}⟩
      (fun g => g.slots == [some 1, some 5, some 7, some 8]) = true := by decide +kernel
  obtain ⟨last, hschedule, htest⟩ := Step.exists_last_of_succeeds hsucceeds
  have hcontrol : HasControlPath 0 carriedResult := fun id hid => hslots id (hg.control.mpr hid)
  have hbest := schedule_best hg hrange hcontrol hschedule
  exact ⟨last, hschedule, by simpa using htest, hbest.2.2.2⟩

end DataPath

end SlotScheduling
