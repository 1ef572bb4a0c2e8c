import SlotScheduling.Proofs.Placement.Surrounded

/-!
# Data paths that fit

The data path can be placed around a control path with room whenever there are slots for it that
fit: the solver finds a solution of the constraints if there is one.
-/

namespace SlotScheduling.DataPath

open ConstraintSystem SlotScheduling.Graph

variable {g : Graph} {block : BlockId} {entrySlot last : Nat} {latencies : List (UnitId × Nat)}
  {options : SchedulingOptions} {sys : ConstraintSystem} {id : UnitId} {unit : ScheduleUnit}
  {values : UnitId → Int} {now : Journaled Graph}

/-- The start of the block and the offsets are there. -/
theorem Spacious.readable (hg : Spacious block entrySlot last latencies g)
    (hunit : g.units[id]? = some unit) : Readable g id unit where
  start := fun _ => hg.exists_startSlot hunit
  deps := fun dep hdep => by
    have hbundle := (bundle?_eq hunit dep.1).trans
      (Table.get?_of_mem_entries (hg.tidy hunit).nodup hdep)
    rw [(hg.units hunit).block]
    exact (hg.offsets hbundle).imp fun _ h => h.1
  uses := fun user _ consumer bundle hconsumer _ hdep => by
    rw [(hg.units hconsumer).block]
    exact (hg.offsets ((bundle?_eq hconsumer id).trans hdep)).imp fun _ h => h.1

/-- The solver finds slots for the units that float if there are words that fit. -/
theorem Spacious.exists_solution (hg : Spacious block entrySlot last latencies g)
    (hslots : g.EndsBy last) (hsplit : Split g) (hbuild : build g options = .ok sys)
    (hfits : Fits options g values)
    (hrange : ∀ {id}, g.IsFloating id → 0 ≤ values id ∧ values id < Word.count) :
    ∃ slots, (if options.dataPathLate then sys.latest else sys.earliest) = .ok slots := by
  have hwords : HasWords g := hg.hasWords hslots
  obtain ⟨sys', hbuild', hexact⟩ := hg.exists_build hslots options
  obtain rfl := Except.ok.inj (hbuild.symm.trans hbuild')
  obtain ⟨base, hdescribes⟩ := exists_describes hwords hbuild
  have hsatisfies := hdescribes.satisfies_of_fits hg.inRange hsplit
    (fun _ hunit _ => hg.readable hunit) hfits
  have hvalues : ∀ index < sys.unknowns.size,
      0 ≤ base.valuesIn values index ∧ base.valuesIn values index < Word.count := by
    intro index hindex
    rw [hdescribes.grows.keepsUnits] at hindex
    obtain ⟨hmem, hslot⟩ := hdescribes.free.slot (Array.getElem_mem hindex)
    rw [valuesIn, Array.getD_eq_getD_getElem?, Array.getElem?_eq_getElem hindex, Option.getD_some]
    obtain ⟨unit, hunit, -⟩ := hg.data.mp hmem
    exact hrange (hsplit.isFloating hunit ((slot?_eq hunit).symm.trans hslot))
  have hunfrozen : ∀ {id : UnitId} {unit : ScheduleUnit}, g.units[id]? = some unit →
      unit.fixedTiming = false := fun hunit => (hg.units hunit).unfrozen
  split
  next hlate =>
    exact exists_latest hdescribes.closed hexact
      (boundedAbove_build hg.toListed hwords hunfrozen hlate hbuild) hsatisfies hvalues
  next =>
    refine exists_earliest hdescribes.closed (fun arc hmem => ?_)
      (exists_arc_of_build hunfrozen exists_lower_of_addWindow hg.toListed hbuild) hsatisfies
      hvalues
    exact (Nat.le_add_right _ _).trans (hexact arc hmem)

/-- The data path can be scheduled if slots fit around all units that are placed beforehand. -/
theorem exists_schedule (hg : Spacious block entrySlot last latencies now.state)
    (hfits : ∀ {placed}, Sorts now.state placed → Split placed → ∃ values,
      Fits options placed values ∧
        ∀ {id}, placed.IsFloating id → 0 ≤ values id ∧ values id < Word.count) :
    ∃ done, schedule options now = .ok ⟨⟩ done := by
  obtain ⟨sys, middle, hrun, hbuild, hsorts, hsplit, hspacious, hends⟩ := hg.exists_settle options
  obtain ⟨values, hvalues, hrange⟩ := hfits hsorts hsplit
  obtain ⟨slots, hsolved⟩ := hspacious.exists_solution hends hsplit hbuild hvalues hrange
  have hclassifies : ∀ {solved : Graph}, Spacious block entrySlot last latencies solved →
      solved.EndsBy (last + (latencies.map Prod.snd).sum) →
      ∃ done, solved.dataUnits.foldlM (classify options) solved = .ok done :=
    fun hsolved hends => (hsolved.exists_classifyAll hends).imp fun _ h => h.1
  rw [hrun, settle]
  split
  · rcases hspacious.exists_improves hends hsplit hbuild with
      ⟨slots', solved, hsolved', hplaces, himproves⟩ | ⟨reason, hreason⟩
    · have hsolution := hspacious.of_frame_eq himproves.frame fun hid =>
        himproves.kept fun hfloat => hid.not_isData hfloat.1
      obtain ⟨done, hclassify⟩ := hclassifies hsolution (himproves.endsBy hspacious hends)
      have hplaced : Step.updateChecked (fun g => g.placeAll slots') middle =
          .ok ⟨⟩ ⟨solved, middle.journal⟩ := Step.updateChecked_eq_ok.mpr ⟨_, hplaces, rfl⟩
      refine ⟨⟨done, middle.journal⟩, ?_⟩
      rw [Step.lift_bind_of_eq_ok (Checked.orMalformed_eq_ok.mpr hsolved'),
        Step.bind_of_eq_ok hplaced]
      exact Step.updateChecked_eq_ok.mpr ⟨_, hclassify, rfl⟩
    · rw [hsolved] at hreason
      cases hreason
  · obtain ⟨done, hclassify⟩ :=
      hclassifies hspacious fun hslot => (hends hslot).trans (Nat.le_add_right _ _)
    exact ⟨⟨done, middle.journal⟩, Step.updateChecked_eq_ok.mpr ⟨_, hclassify, rfl⟩⟩

end SlotScheduling.DataPath
