import SlotScheduling.Proofs.DataPath
import SlotScheduling.Proofs.Ensured
import SlotScheduling.Proofs.Placement.Spacious

/-!
# Data paths in time

Around a control path with room the data path never fails but with an error.  Units that are placed
late stay within their block.  Of units that are placed early, the slots in which nothing is in
flight could be left out, so that none of them is later than all latencies together allow.
-/

namespace SlotScheduling

/-- A loop ends well if no round fails on what the rounds before it keep. -/
theorem Step.exists_foldlM {σ α β : Type} {P : σ → Prop} {list : List β} {round : α → β → Step σ α}
    {now : Journaled σ}
    (hround : ∀ item ∈ list, ∀ value before, P before.state →
      ∃ value' after, round value item before = .ok value' after ∧ P after.state)
    (h : P now.state) (value : α) :
    ∃ value' last, list.foldlM round value now = .ok value' last ∧ P last.state := by
  induction list generalizing value now with
  | nil => exact ⟨value, now, rfl, h⟩
  | cons item rest ih =>
      obtain ⟨hitem, hrest⟩ := List.forall_mem_cons.mp hround
      obtain ⟨value', middle, hmiddle, hkept⟩ := hitem value now h
      obtain ⟨value'', last, hlast, hend⟩ := ih hrest hkept value'
      exact ⟨value'', last, by rw [List.foldlM_cons, Step.bind_of_eq_ok hmiddle, hlast], hend⟩

namespace Graph

variable {g : Graph}

theorem EndsBy.fixedSlot?_le {last : Nat} {id : UnitId} {slot : Nat}
    (hslots : g.EndsBy last) (hslot : g.fixedSlot? id = some slot) : slot ≤ last := by
  by_cases hid : g.IsFloating id
  · rw [fixedSlot?_of_isFloating hid] at hslot
    cases hslot
  · exact hslots ((fixedSlot?_of_not_isFloating hid).symm.trans hslot)

end Graph

namespace DataPath

open ConstraintSystem Compression SlotScheduling.Graph

variable {g g' : Graph} {block : BlockId} {entrySlot last : Nat} {latencies : List (UnitId × Nat)}
  {options : SchedulingOptions} {sys : ConstraintSystem} {id : UnitId} {values : UnitId → Int}
  {now : Journaled Graph}

theorem Spacious.of_frame_eq (hg : Spacious block entrySlot last latencies g)
    (hframe : g'.frame = g.frame) (hslots : ∀ {id}, g.IsControl id → g'.slot? id = g.slot? id) :
    Spacious block entrySlot last latencies g' where
  toOfBlock := hg.toOfBlock.of_frame_eq hframe
  toTidy := hg.toTidy.of_skeleton_eq (skeleton_eq_of_frame_eq hframe)
  size := (size_eq_of_skeleton_eq (skeleton_eq_of_frame_eq hframe)).trans_lt hg.size
  starts := (entrySlot_of_frame_eq hframe).trans_le hg.starts
  issues := fun hid => by
    have hid := (isControl_iff_of_frame_eq hframe).mp hid
    rw [hslots hid]
    exact hg.issues hid
  offsets := by
    rw [bundle?_of_frame_eq hframe, interval?_of_frame_eq hframe]
    exact hg.offsets
  words := by
    rw [bundle?_of_frame_eq hframe]
    exact hg.words
  listed := by
    intro user source bundle hbundle hdata
    rw [bundle?_of_frame_eq hframe] at hbundle
    rw [isData_iff_of_frame_eq hframe, isData_iff_of_frame_eq hframe] at hdata
    exact hg.listed hbundle hdata
  steps := by
    intro id unit hunit
    obtain ⟨unit', hunit', hlatency⟩ := exists_latency_eq (skeleton_eq_of_frame_eq hframe) hunit
    exact hlatency ▸ hg.steps hunit'

theorem Spacious.inRange (hg : Spacious block entrySlot last latencies g) : g.InRange where
  entrySlot := by
    have hstarts := hg.starts
    have hlast := hg.last_lt
    omega
  units := by
    intro id unit hunit
    have htidy := hg.tidy hunit
    refine ⟨htidy.nodup, fun dep hdep => ⟨?_, fun hfixed => ?_⟩⟩
    · exact hg.words ((bundle?_eq hunit dep.1).trans (Table.get?_of_mem_entries htidy.nodup hdep))
    · rw [htidy.loose dep hdep] at hfixed
      cases hfixed

/-! ## Units that dangle -/

/-- No unit is placed after the last slot of the block. -/
theorem Prepared.endsBy (h : Prepared g g') (hg : Spacious block entrySlot last latencies g) :
    g'.EndsBy last := by
  intro id slot hslot
  obtain ⟨unit', hunit', -⟩ := Option.bind_eq_some_iff.mp hslot
  obtain ⟨unit, hunit, -⟩ := exists_of_frame_eq h.frame hunit'
  cases hcontrol : unit.control with
  | true =>
      obtain ⟨slot', hslot', hle⟩ := hg.issues ⟨unit, hunit, hcontrol⟩
      rw [h.control ⟨unit, hunit, hcontrol⟩, hslot'] at hslot
      exact Option.some.inj hslot ▸ hle
  | false =>
      by_cases hneeded : g'.IsNeeded id
      · rw [h.free ⟨unit, hunit, hcontrol⟩ hneeded] at hslot
        cases hslot
      · obtain ⟨slot', hend, hslot'⟩ := h.dangling hunit hcontrol hneeded
        obtain ⟨end_, hend', hle⟩ := hg.exists_endSlot
        rw [(hg.units hunit).block, hend'] at hend
        rw [hslot'] at hslot
        cases hend
        cases hslot
        exact hle

theorem Spacious.exists_placeDangling (hg : Spacious block entrySlot last latencies g)
    (hid : g.IsData id) : ∃ g' placed, placeDangling g id = .ok (g', placed) ∧
      Spacious block entrySlot last latencies g' ∧ g'.frame = g.frame := by
  obtain ⟨unit, hunit, hdata⟩ := hid
  obtain ⟨end_, hend, -⟩ := hg.exists_endSlot
  have hunfrozen := (hg.units hunit).unfrozen
  have hplaces : ∃ g' placed, placeDangling g id = .ok (g', placed) := by
    rw [placeDangling, unit_eq_ok.mpr hunit, Checked.ok_bind]
    simp only [hunfrozen, Bool.not_false, Bool.and_true, Bool.false_eq_true, if_false, pure_bind]
    split
    · have hlast : lastSlot g id unit.block = .ok end_ := by
        rw [lastSlot, (hg.units hunit).block, hend]
        rfl
      obtain ⟨g', hplace⟩ : ∃ g', g.changeUnit id (·.place end_) = .ok g' :=
        ⟨_, changeUnit_eq_ok.mpr ⟨lt_size_of_getElem? hunit, rfl⟩⟩
      exact ⟨g', true, by simp only [hlast, Checked.ok_bind, hplace]; rfl⟩
    · exact ⟨g, false, rfl⟩
  obtain ⟨g', placed, hplace⟩ := hplaces
  refine ⟨g', placed, hplace, ?_⟩
  obtain ⟨unit', hunit', hcases⟩ := placeDangling_cases hplace
  obtain rfl := Option.some.inj (hunit.symm.trans hunit')
  rcases hcases with ⟨hfixed, -⟩ | ⟨-, -, rfl⟩ | ⟨-, -, slot, -, hchange⟩
  · rw [hunfrozen] at hfixed
    cases hfixed
  · exact ⟨hg, rfl⟩
  · have hframe := frame_changeUnit hchange fun _ => rfl
    refine ⟨hg.of_frame_eq hframe fun {other} hother => ?_, hframe⟩
    rw [slot?_changeUnit_place hchange, if_neg]
    rintro rfl
    exact hother.not_isData ⟨unit, hunit, hdata⟩

theorem exists_placeAllDangling (hg : Spacious block entrySlot last latencies now.state) :
    ∃ count placed, placeAllDangling now.state.dataUnits now = .ok count placed := by
  refine (Step.exists_foldlM
    (P := fun h => Spacious block entrySlot last latencies h ∧ h.frame = now.state.frame)
    (fun id hid count before hbefore => ?_) ⟨hg, rfl⟩ 0).imp fun _ h => h.imp fun _ h => h.1
  obtain ⟨hbefore, hframe⟩ := hbefore
  obtain ⟨g', placed, hplace, hafter, hframe'⟩ :=
    hbefore.exists_placeDangling ((isData_iff_of_frame_eq hframe).mpr (hg.data.mp hid))
  refine ⟨if placed then count + 1 else count, ⟨g', before.journal⟩, ?_, hafter,
    hframe'.trans hframe⟩
  rw [Step.current_bind]
  exact Step.lift_bind_eq_ok.mpr ⟨_, hplace, rfl⟩

/-! ## Units that float -/

/-- What is in flight: the latencies, from when their sources issue. -/
def inFlight (latencies : List (UnitId × Nat)) (values : UnitId → Int) : List (Int × Nat) :=
  latencies.map fun latency => (values latency.1, latency.2)

theorem sum_inFlight (latencies : List (UnitId × Nat)) (values : UnitId → Int) :
    ((inFlight latencies values).map Prod.snd).sum = (latencies.map Prod.snd).sum := by
  simp [inFlight, Function.comp_def]

/-- Without an end of the block, time in which nothing is in flight can be left out. -/
theorem Fits.compress (hfits : Fits options g values)
    (hg : Spacious block entrySlot last latencies g) (hearly : options.dataPathLate = false)
    (hfixed : ∀ {id slot}, g.fixedSlot? id = some slot → slot ≤ last) :
    Fits options g fun id => compress (inFlight latencies values) last (values id) where
  fixed := by
    intro id slot hslot
    have hvalue := hfits.fixed hslot
    have hle := hfixed hslot
    rw [hvalue, compress_of_le (by omega)]
  edges := by
    intro user source consumer bundle hconsumer hdep hfloats gap hgap
    have hbundle := (bundle?_eq hconsumer source).trans hdep
    have hloose := (hg.tidy hconsumer).loose _ (Table.mem_entries_of_get?_eq_some hdep)
    have hadmits := hfits.edges hconsumer hdep hfloats gap hgap
    obtain ⟨slack, hslack, rfl⟩ := DepEdge.exists_slack_of_minGap? hgap
    have hmem := hg.listed hbundle (hfloats.imp And.left And.left)
    unfold DepEdge.Admits at hadmits ⊢
    rw [hloose, if_neg Bool.false_ne_true] at hadmits ⊢
    have hspan : (values source, bundle.edge.latency) ∈ inFlight latencies values :=
      List.mem_map_of_mem (f := fun latency => (values latency.1, latency.2)) hmem
    have hgap : values source + (bundle.edge.latency - slack) ≤ values user := by omega
    have hwaits := compress_waits last hspan hslack hgap
    omega
  window := by
    intro id unit hunit hid hunfrozen
    obtain ⟨hlow, -⟩ := hfits.window hunit hid hunfrozen
    refine ⟨?_, fun hlate => ?_⟩
    · have hfirst : g.firstSlot unit.block ≤ last := by
        unfold firstSlot
        cases hfirst : (g.holder? (.entry unit.block)).bind g.fixedSlot? with
        | none => exact hg.starts
        | some first =>
            obtain ⟨entry, -, hslot⟩ := Option.bind_eq_some_iff.mp hfirst
            exact hfixed hslot
      have hmono := compress_mono (inFlight latencies values) last hlow
      rwa [compress_of_le (by omega)] at hmono
    · rw [hearly] at hlate
      cases hlate

/-- Neither are the best slots late, whichever way they are found. -/
theorem Improves.endsBy (h : Improves options g g')
    (hg : Spacious block entrySlot last latencies g) (hslots : g.EndsBy last) :
    g'.EndsBy (last + (latencies.map Prod.snd).sum) := by
  intro id slot hslot
  by_cases hid : g.IsFloating id
  · have hvalue := slotValue_eq hslot
    obtain ⟨unit, hunit, -⟩ := hid.1
    cases hlate : options.dataPathLate with
    | true =>
        obtain ⟨-, hend⟩ := h.fits.window hunit hid (hg.units hunit).unfrozen
        obtain ⟨end_, hend, hle⟩ := hend hlate
        obtain ⟨end', hend', hle'⟩ := hg.exists_endSlot
        rw [(hg.units hunit).block, hend'] at hend
        cases hend
        omega
    | false =>
        have hle := h.noWorse (h.fits.compress hg hlate hslots.fixedSlot?_le) hid
        have hcompress := compress_le (inFlight latencies g'.slotValue) last (g'.slotValue id)
        rw [sum_inFlight] at hcompress
        simp only [NoWorse, hlate, Bool.false_eq_true, if_false] at hle
        omega
  · rw [h.kept hid] at hslot
    exact (hslots hslot).trans (Nat.le_add_right _ _)

theorem Spacious.hasControlPath (hg : Spacious block entrySlot last latencies g) :
    HasControlPath 0 g := by
  intro id hid
  obtain ⟨slot, hslot, hle⟩ := hg.issues hid
  have hlast := hg.last_lt
  exact ⟨slot, hslot, Nat.zero_le _, by omega⟩

/-- The units that float are placed in their best slots, or their constraints have no solution. -/
theorem Spacious.exists_improves (hg : Spacious block entrySlot last latencies g)
    (hslots : g.EndsBy last) (hsplit : Split g) (hbuild : build g options = .ok sys) :
    (∃ slots solved, (if options.dataPathLate then sys.latest else sys.earliest) = .ok slots ∧
      g.placeAll slots = .ok solved ∧ Improves options g solved) ∨
      ∃ reason, (if options.dataPathLate then sys.latest else sys.earliest) =
        .error (.error (.infeasible reason)) := by
  have hwords : HasWords g := hg.hasWords hslots
  obtain ⟨base, hdescribes⟩ := exists_describes hwords hbuild
  have hclosed := hdescribes.closed
  have hlight := light_build hwords hg.inRange hbuild
  have hcases : (∃ slots, (if options.dataPathLate then sys.latest else sys.earliest) = .ok slots) ∨
      ∃ reason, (if options.dataPathLate then sys.latest else sys.earliest) =
        .error (.error (.infeasible reason)) := by
    split
    next hlate =>
      exact latest_cases hclosed (boundedAbove_build hg.toListed hwords
        (fun hunit => (hg.units hunit).unfrozen) hlate hbuild)
    next => exact earliest_cases hclosed
  refine hcases.imp_left fun ⟨slots, hsolved⟩ => ?_
  have hunits := (best_of_solution hclosed hlight hsolved).1
  rw [hdescribes.grows.keepsUnits] at hunits
  obtain ⟨solved, hplace⟩ := exists_placeAll (g := g) fun placement hmem => by
    have hmem := hunits ▸ List.mem_map_of_mem (f := Prod.fst) hmem
    exact (hg.data.mp (hdescribes.free.slot (Array.mem_toList_iff.mp hmem)).1).lt_size
  exact ⟨slots, solved, hsolved, hplace, improves_placeAll hdescribes hg.toWellFormed hg.inRange
    hsplit hlight hsolved hplace⟩

/-! ## Classes -/

section

variable (hg : Spacious block entrySlot last latencies g)
  (hslots : g.EndsBy (last + (latencies.map Prod.snd).sum))

include hg hslots

theorem Spacious.exists_waitsForProducer (slot : Nat) {sources : List UnitId}
    (hsources : ∀ source ∈ sources, source < g.units.size) :
    ∃ waits, waitsForProducer g block slot sources = .ok waits := by
  induction sources with
  | nil => exact ⟨false, rfl⟩
  | cons source rest ih =>
      obtain ⟨hsource, hrest⟩ := List.forall_mem_cons.mp hsources
      obtain ⟨producer, hproducer⟩ := exists_unit hsource
      have hget := unit_eq_ok.mp hproducer
      obtain ⟨waits, hwaits⟩ := ih hrest
      rw [waitsForProducer, hproducer, Checked.ok_bind]
      split
      · cases hslot : producer.slot with
        | none =>
            have hfinal : producer.finalSlot = .ok none := by rw [ScheduleUnit.finalSlot, hslot]
            exact ⟨waits, by simp only [hfinal, Checked.ok_bind, hwaits]⟩
        | some issue =>
            have hissue := hslots ((slot?_eq hget).trans hslot)
            have hsteps := hg.steps hget
            have hfinal : producer.finalSlot = .ok (some (issue + producer.latency)) := by
              rw [ScheduleUnit.finalSlot, hslot]
              exact congrArg (some <$> ·) (Word.add_eq_ok.mpr
                ⟨(by omega : issue + producer.latency < Word.count), rfl⟩)
            have hends : ∀ copy, ∃ waits, (if slot < copy then pure true
                else waitsForProducer g block slot rest : Checked Bool) = .ok waits := by
              intro copy
              split
              · exact ⟨true, rfl⟩
              · exact ⟨waits, hwaits⟩
            simp only [hfinal, Checked.ok_bind]
            split
            · rw [Word.add_eq_ok.mpr ⟨(by omega : issue + producer.latency + 1 < Word.count), rfl⟩,
                Checked.ok_bind]
              exact hends _
            · exact hends _
      · exact ⟨waits, hwaits⟩

theorem Spacious.exists_classify (options : SchedulingOptions) (hid : id < g.units.size) :
    ∃ g', classify options g id = .ok g' := by
  obtain ⟨unit, hunit⟩ := exists_unit hid
  have hget := unit_eq_ok.mp hunit
  have hclass : ∃ valueClass, classOf g options unit = .ok valueClass := by
    unfold classOf
    split
    next slot _ _ =>
      obtain ⟨waits, hwaits⟩ := hg.exists_waitsForProducer hslots slot
        fun source hsource => hg.toWellFormed.source_lt hget hsource
      rw [(hg.units hget).block, hwaits]
      exact ⟨_, rfl⟩
    next => exact ⟨_, rfl⟩
  obtain ⟨valueClass, hclass⟩ := hclass
  rw [classify, hunit, Checked.ok_bind]
  split
  · exact ⟨g, rfl⟩
  · simp only [hclass, Checked.ok_bind]
    exact ⟨_, changeUnit_eq_ok.mpr ⟨hid, rfl⟩⟩

/-- Every class can be decided, and no slot is changed. -/
theorem Spacious.exists_classifyAll : ∃ g', g.dataUnits.foldlM (classify options) g = .ok g' ∧
    g'.EndsBy (last + (latencies.map Prod.snd).sum) := by
  refine (Checked.exists_foldlM (P := fun h => (Spacious block entrySlot last latencies h ∧
    h.EndsBy (last + (latencies.map Prod.snd).sum)) ∧ h.units.size = g.units.size)
    (fun id hid before hbefore => ?_) ⟨⟨hg, hslots⟩, rfl⟩).imp fun _ h => ⟨h.1, h.2.1.2⟩
  obtain ⟨⟨hbefore, hends⟩, hsize⟩ := hbefore
  obtain ⟨after, hafter⟩ := hbefore.exists_classify hends options
    (hsize ▸ (hg.data.mp hid).lt_size)
  obtain ⟨hframe, hkept, -⟩ := classify_sound hafter
  refine ⟨after, hafter, ⟨hbefore.of_frame_eq hframe fun _ => hkept _, fun {id slot} hslot => ?_⟩,
    (size_eq_of_skeleton_eq (skeleton_eq_of_frame_eq hframe)).trans hsize⟩
  exact hends ((hkept id).symm.trans hslot)

end

/-! ## The pass -/

/-- What the pass does once its system is built. -/
def settle (options : SchedulingOptions) (sys : ConstraintSystem) : Step Graph PUnit := do
  if 0 < sys.unknowns.size then
    let slots ← (if options.dataPathLate then sys.latest else sys.earliest).orMalformed
    Step.updateChecked (·.placeAll slots)
  Step.updateChecked fun g => g.dataUnits.foldlM (classify options) g

/-- The units that dangle can be placed, and the system for the others can be built. -/
theorem Spacious.exists_settle (hg : Spacious block entrySlot last latencies now.state)
    (options : SchedulingOptions) :
    ∃ sys middle, schedule options now = settle options sys middle ∧
      build middle.state options = .ok sys ∧ Sorts now.state middle.state ∧ Split middle.state ∧
        Spacious block entrySlot last latencies middle.state ∧ middle.state.EndsBy last := by
  obtain ⟨cleared, hreset⟩ : ∃ cleared, now.state.resetData = .ok cleared :=
    exists_changeUnits fun id hid => (hg.data.mp hid).lt_size
  obtain ⟨undangled, hundangle, -⟩ := exists_undangle_of_resetData hg.toWellFormed hreset
  obtain ⟨hframe, hcontrol, hfree, -⟩ := reset_undangle hg.toListed hreset hundangle
  have hundangled : Spacious block entrySlot last latencies
      (⟨undangled, now.journal⟩ : Journaled Graph).state := hg.of_frame_eq hframe hcontrol
  obtain ⟨count, placed, hplace⟩ := exists_placeAllDangling hundangled
  have hprepared := placeAllDangling_sound hundangled.toListed
    (fun hid => hfree ((isData_iff_of_frame_eq hframe).mp hid)) hplace
  have hplaced := hundangled.of_frame_eq hprepared.frame hprepared.control
  have hends : placed.state.EndsBy last := hprepared.endsBy hundangled
  obtain ⟨sys, hbuild, -⟩ := hplaced.exists_build hends options
  obtain ⟨journal, hrun⟩ : ∃ journal, schedule options now =
      settle options sys ⟨placed.state, journal⟩ := by
    have hcleared : Step.updateChecked resetData now = .ok ⟨⟩ ⟨cleared, now.journal⟩ :=
      Step.updateChecked_eq_ok.mpr ⟨_, hreset, rfl⟩
    have hspread : Step.updateChecked (fun g => g.controlUnits.foldlM undangle g)
        ⟨cleared, now.journal⟩ = .ok ⟨⟩ ⟨undangled, now.journal⟩ :=
      Step.updateChecked_eq_ok.mpr ⟨_, hundangle, rfl⟩
    rw [schedule, Step.bind_of_eq_ok hcleared, Step.bind_of_eq_ok hspread, Step.current_bind,
      Step.bind_of_eq_ok hplace, Step.current_bind, Step.lift_bind_of_eq_ok hbuild,
      Step.note_bind]
    exact ⟨_, rfl⟩
  have hsorts : Sorts now.state placed.state :=
    sorts_of_placeAllDangling hg.toWellFormed hreset (by exact hundangle) hplace
  exact ⟨sys, ⟨placed.state, journal⟩, hrun, hbuild, hsorts,
    hprepared.split hundangled.hasControlPath, hplaced, hends⟩

/-- The data path ends with slots that are not late, or with an error. -/
theorem ensures_schedule (hg : Spacious block entrySlot last latencies now.state) :
    (schedule options).Ensures (fun _ h => h.EndsBy (last + (latencies.map Prod.snd).sum)) now := by
  obtain ⟨sys, middle, hrun, hbuild, -, hsplit, hplaced, hends⟩ := hg.exists_settle options
  suffices hsettles : (settle options sys).Ensures
      (fun _ h => h.EndsBy (last + (latencies.map Prod.snd).sum)) middle by
    unfold Step.Ensures at hsettles ⊢
    rwa [hrun]
  have hclassifies : ∀ {solved : Graph}, Spacious block entrySlot last latencies solved →
      solved.EndsBy (last + (latencies.map Prod.snd).sum) → ∀ journal,
      (Step.updateChecked fun g => g.dataUnits.foldlM (classify options) g).Ensures
        (fun _ h => h.EndsBy (last + (latencies.map Prod.snd).sum)) ⟨solved, journal⟩ :=
    fun hsolved hends journal =>
      Step.ensures_updateChecked (Checked.ensures_of_exists (hsolved.exists_classifyAll hends))
  unfold settle
  split
  · rcases hplaced.exists_improves hends hsplit hbuild with
      ⟨slots, solved, hsolved, hplaces, himproves⟩ | ⟨reason, hreason⟩
    · have hsolution := hplaced.of_frame_eq himproves.frame fun hid =>
        himproves.kept fun hfloat => hid.not_isData hfloat.1
      exact (Step.ensures_lift_bind_of_eq_ok (Checked.orMalformed_eq_ok.mpr hsolved)).mpr
        ((Step.ensures_updateChecked_bind_of_eq_ok hplaces).mpr
          (hclassifies hsolution (himproves.endsBy hplaced hends) _))
    · exact Step.ensures_orMalformed_bind hreason
  · exact hclassifies hplaced (fun hslot => (hends hslot).trans (Nat.le_add_right _ _)) _

end DataPath

end SlotScheduling
