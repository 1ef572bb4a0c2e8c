import SlotScheduling.Proofs.Placement.Arranged

/-!
# Dependencies that are met

Around a control path whose dependencies are met, a finished data path meets the
dependencies of every unit that does not dangle.  The moves of a pipelined loop
may come later than the units that depend on them would allow.
-/

namespace SlotScheduling

namespace Graph

variable {g g' : Graph} {block : BlockId} {entrySlot lowest delay : Nat}
  {interval : Option Nat} {id : UnitId} {unit : ScheduleUnit}

/-- The dependencies among control units are met, up to a delay of the moves. -/
def MeetsControl (interval : Option Nat) (delay : Nat) (g : Graph) : Prop :=
  ∀ {target source : UnitId} {consumer : ScheduleUnit} {bundle : EdgeBundle},
    g.units[target]? = some consumer → consumer.control = true →
    consumer.dep? source = some bundle →
    ∃ offset?, bundle.edge.offset? interval = .ok offset? ∧
      ∀ offset ∈ offset?, ∀ producer, g.units[source]? = some producer →
        producer.control = true → ∃ s t : Nat, producer.slot = some s ∧
          consumer.slot = some t ∧ offset ≤ (t : Int) - s + if producer.phi then delay else 0

/-- The dependencies of the control units and of the units that they need are met,
up to a delay of the moves. -/
def Meets (interval : Option Nat) (delay : Nat) (g : Graph) : Prop :=
  ∀ {target source : UnitId} {consumer : ScheduleUnit} {bundle : EdgeBundle},
    g.units[target]? = some consumer → consumer.control = true ∨ consumer.dangling = false →
    consumer.dep? source = some bundle →
    ∃ offset?, bundle.edge.offset? interval = .ok offset? ∧
      ∃ producer, g.units[source]? = some producer ∧ ∃ s t : Nat, producer.slot = some s ∧
        consumer.slot = some t ∧ ∀ offset ∈ offset?,
          offset ≤ (t : Int) - s + if producer.phi then delay else 0

theorem exists_producer (hg : g.WellFormed) {source : UnitId} {bundle : EdgeBundle}
    (hunit : g.units[id]? = some unit) (hdep : unit.dep? source = some bundle) :
    ∃ producer, g.units[source]? = some producer := by
  have hdepends : g.DependsOn id source := ⟨unit, hunit, Table.mem_keys_iff.mpr ⟨bundle, hdep⟩⟩
  have hused := hg.linked.mp hdepends
  exact ⟨hused.choose, hused.choose_spec.1⟩

theorem mem_controlUnits_of_frame_eq (hg : g'.Listed) (hframe : g'.frame = g.frame)
    (hid : g'.IsControl id) : id ∈ g.controlUnits := by
  have hlisted := hg.of_outline_eq
    (outline_eq_of_skeleton_eq (skeleton_eq_of_frame_eq hframe.symm))
  exact hlisted.control.mpr ((isControl_iff_of_frame_eq hframe).mp hid)

end Graph

open SlotScheduling.Graph

namespace ControlSystem.Placed

variable {g g' : Graph} {bounds : ControlBounds} {block : BlockId}
  {entrySlot lowest : Nat} {interval : Option Nat}

theorem hasControlPath (h : Placed g bounds g') (hg : g'.Listed)
    (hlowest : lowest ≤ g'.entrySlot)
    (hknown : ∀ {id slot}, g.IsControl id → g.slot? id = some slot →
      lowest ≤ slot ∧ slot < Word.count) : DataPath.HasControlPath lowest g' := by
  intro id hid
  have hmem := mem_controlUnits_of_frame_eq hg h.frame hid
  obtain ⟨slot, hslot⟩ := h.scheduled hmem
  refine ⟨slot, hslot, ?_⟩
  have hentry : g'.entrySlot = g.entrySlot := entrySlot_of_frame_eq h.frame
  cases hold : g.slot? id with
  | none =>
      have hrange := h.range hmem hold hslot
      omega
  | some old =>
      have hkept := h.kept hold
      rw [hslot] at hkept
      cases hkept
      exact hknown ((isControl_iff_of_frame_eq h.frame).mp hid) hold

theorem meetsControl (h : Placed g bounds g') (hg : g'.OfBlock block entrySlot)
    (hinterval : bounds.interval? g block = interval) : g'.MeetsControl interval 0 := by
  intro target source consumer bundle hconsumer hcontrol hdep
  obtain ⟨consumer', hconsumer', hagree⟩ := exists_of_frame_eq h.frame hconsumer
  have hblock : consumer'.block = block := by
    rw [← (hg.units hconsumer).block]
    exact hagree.block.symm
  have hmem := mem_controlUnits_of_frame_eq hg.toListed h.frame ⟨consumer, hconsumer, hcontrol⟩
  have hentry : (source, bundle) ∈ consumer'.deps.entries :=
    Table.mem_entries_of_get?_eq_some (hagree.deps ▸ hdep)
  obtain ⟨t, ht⟩ := h.scheduled hmem
  obtain ⟨offset?, hoffset, hmeets⟩ := h.deps hmem hconsumer' hentry ht
  rw [ControlBounds.offset?, hblock, hinterval] at hoffset
  refine ⟨offset?, hoffset, fun offset hsome producer hproducer hsource => ?_⟩
  have hisControl : g'.IsControl source := ⟨producer, hproducer, hsource⟩
  obtain ⟨s, hs⟩ := h.scheduled (mem_controlUnits_of_frame_eq hg.toListed h.frame hisControl)
  have hgap := (hmeets offset hsome ((isControl_iff_of_frame_eq h.frame).mp hisControl) s hs).le
  refine ⟨s, t, (slot?_eq hproducer).symm.trans hs, (slot?_eq hconsumer).symm.trans ht, ?_⟩
  simpa using hgap

end ControlSystem.Placed

namespace DataPath.Finished

variable {g g' : Graph} {block : BlockId} {entrySlot lowest delay : Nat}
  {interval : Option Nat} {id : UnitId} {unit : ScheduleUnit}

theorem exists_slot (h : Finished lowest g g') (hpath : HasControlPath lowest g)
    (hunit : g'.units[id]? = some unit) : ∃ slot, unit.slot = some slot ∧ lowest ≤ slot := by
  rw [← slot?_eq hunit]
  by_cases hcontrol : unit.control = true
  · have hid : g.IsControl id := (isControl_iff_of_frame_eq h.frame).mp ⟨unit, hunit, hcontrol⟩
    obtain ⟨slot, hslot, hlow, _⟩ := hpath id hid
    exact ⟨slot, (h.control hid).trans hslot, hlow⟩
  · have hdata : g.IsData id := (isData_iff_of_frame_eq h.frame).mp
      ⟨unit, hunit, Bool.eq_false_iff.mpr hcontrol⟩
    exact h.placed hdata

theorem gap_of_control (h : Finished lowest g g') (hmeets : g.MeetsControl interval delay)
    {target source : UnitId} {consumer producer : ScheduleUnit} {bundle : EdgeBundle}
    (hconsumer : g'.units[target]? = some consumer) (hcontrol : consumer.control = true)
    (hdep : consumer.dep? source = some bundle)
    (hinterval : g'.interval? consumer.block = interval)
    (hproducer : g'.units[source]? = some producer) {s t : Nat}
    (hs : producer.slot = some s) (ht : consumer.slot = some t) :
    ∃ offset?, bundle.edge.offset? interval = .ok offset? ∧ ∀ offset ∈ offset?,
      offset ≤ (t : Int) - s + if producer.phi then delay else 0 := by
  obtain ⟨consumer', hconsumer', hagree⟩ := exists_of_frame_eq h.frame hconsumer
  obtain ⟨producer', hproducer', hagree'⟩ := exists_of_frame_eq h.frame hproducer
  have htarget : g.IsControl target := ⟨consumer', hconsumer', hagree.control ▸ hcontrol⟩
  have hdep' : consumer'.dep? source = some bundle := by
    rw [ScheduleUnit.dep?, ← hagree.deps]
    exact hdep
  have hs' := (slot?_eq hproducer).trans hs
  have ht' := (slot?_eq hconsumer).trans ht
  obtain ⟨offset?, hoffset, hgap⟩ := hmeets hconsumer' (hagree.control ▸ hcontrol) hdep'
  refine ⟨offset?, hoffset, fun offset hsome => ?_⟩
  by_cases hsource : producer.control = true
  · have hisControl : g.IsControl source := ⟨producer', hproducer', hagree'.control ▸ hsource⟩
    obtain ⟨s', t', hs'', ht'', hgap⟩ :=
      hgap offset hsome producer' hproducer' (hagree'.control ▸ hsource)
    have hsame : s' = s := by
      rw [← slot?_eq hproducer', ← h.control hisControl, hs'] at hs''
      exact (Option.some.inj hs'').symm
    have hsame' : t' = t := by
      rw [← slot?_eq hconsumer', ← h.control htarget, ht'] at ht''
      exact (Option.some.inj ht'').symm
    rw [hagree'.phi, ← hsame, ← hsame']
    exact hgap
  · have hdata : g'.IsData source := ⟨producer, hproducer, Bool.eq_false_iff.mpr hsource⟩
    rw [← hinterval, hsome] at hoffset
    have hgap := h.uses hconsumer hcontrol hdata hdep hoffset ht' hs'
    split <;> omega

theorem gap_of_data (h : Finished lowest g g') {target source : UnitId}
    {consumer producer : ScheduleUnit} {bundle : EdgeBundle}
    (hconsumer : g'.units[target]? = some consumer) (hdata : consumer.control = false)
    (hneeded : consumer.dangling = false) (hdep : consumer.dep? source = some bundle)
    (hinterval : g'.interval? consumer.block = interval)
    (hproducer : g'.units[source]? = some producer) {s t : Nat}
    (hs : producer.slot = some s) (ht : consumer.slot = some t) :
    ∃ offset?, bundle.edge.offset? interval = .ok offset? ∧ ∀ offset ∈ offset?,
      offset ≤ (t : Int) - s := by
  obtain ⟨offset?, hoffset, hgap⟩ := h.deps hconsumer hdata hneeded
    (Table.mem_entries_of_get?_eq_some hdep) ((slot?_eq hconsumer).trans ht)
  rw [hinterval] at hoffset
  exact ⟨offset?, hoffset, fun offset hsome =>
    hgap offset hsome s ((slot?_eq hproducer).trans hs)⟩

theorem meets (h : Finished lowest g g') (hg : g.OfBlock block entrySlot)
    (hpath : HasControlPath lowest g) (hinterval : g.interval? block = interval)
    (hmeets : g.MeetsControl interval delay) : g'.Meets interval delay := by
  intro target source consumer bundle hconsumer hcounts hdep
  have hg' := hg.of_frame_eq h.frame
  have hinterval' : g'.interval? consumer.block = interval := by
    rw [(hg'.units hconsumer).block, ← hinterval]
    exact congrFun (interval?_of_frame_eq h.frame) block
  obtain ⟨producer, hproducer⟩ := exists_producer hg'.toWellFormed hconsumer hdep
  obtain ⟨s, hs, _⟩ := h.exists_slot hpath hproducer
  obtain ⟨t, ht, _⟩ := h.exists_slot hpath hconsumer
  cases hcontrol : consumer.control with
  | true =>
      obtain ⟨offset?, hoffset, hgap⟩ :=
        h.gap_of_control hmeets hconsumer hcontrol hdep hinterval' hproducer hs ht
      exact ⟨offset?, hoffset, producer, hproducer, s, t, hs, ht, hgap⟩
  | false =>
      have hneeded : consumer.dangling = false := hcounts.resolve_left (by simp [hcontrol])
      obtain ⟨offset?, hoffset, hgap⟩ :=
        h.gap_of_data hconsumer hcontrol hneeded hdep hinterval' hproducer hs ht
      refine ⟨offset?, hoffset, producer, hproducer, s, t, hs, ht, fun offset hsome => ?_⟩
      have hgap := hgap offset hsome
      split <;> omega

end DataPath.Finished

end SlotScheduling
