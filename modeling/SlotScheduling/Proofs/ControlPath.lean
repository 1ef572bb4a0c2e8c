import SlotScheduling.Proofs.FunctionUnits
import SlotScheduling.Proofs.Placement.ControlPath
import SlotScheduling.Proofs.Placement.Reanchored

/-!
# Schedules of the control path

On any graph, whatever was placed or frozen in it before, a schedule of the
control path that ends well meets the dependencies that the graph had when it
started.  The dependencies that are anchored anew in the end do not move a slot.
-/

namespace SlotScheduling

open SlotScheduling.Graph

/-- The second graph extends the slots of the first one to a schedule of its control
path.  In a well-formed graph the listed control units are all there are. -/
structure ControlPath.Schedules (g g' : Graph) : Prop where
  kept : ∀ {id slot}, g.slot? id = some slot → g'.slot? id = some slot
  placed : ∀ {id}, id ∈ g.controlUnits → ∃ slot, g'.slot? id = some slot
  entered : ∀ {id slot}, g.slot? id = none → g'.slot? id = some slot → g.entrySlot ≤ slot
  met : ∀ {target source : UnitId} {bundle : EdgeBundle} {s t : Nat},
    target ∈ g.controlUnits → g.IsControl source → g.bundle? target source = some bundle →
    bundle.edge.distance = 0 → g'.slot? source = some s → g'.slot? target = some t →
    bundle.edge.Admits bundle.edge.latency ((t : Int) - (s : Int))
  carried : ∀ {target source : UnitId} {consumer : ScheduleUnit} {bundle : EdgeBundle}
    {interval s t : Nat}, target ∈ g.controlUnits → g.IsControl source →
    g.units[target]? = some consumer → g.interval? consumer.block = some interval →
    g.bundle? target source = some bundle → 0 < bundle.edge.distance →
    g'.slot? source = some s → g'.slot? target = some t →
    bundle.edge.Admits (bundle.edge.offsetAt interval) ((t : Int) - (s : Int))
  exclusive : ∀ {u v : UnitId} {unit unit' : ScheduleUnit}, u ≠ v → u ∈ g.controlUnits →
    v ∈ g.controlUnits → g.units[u]? = some unit → g.units[v]? = some unit' →
    unit.block = unit'.block → unit.funcUnit = unit'.funcUnit →
    unit.funcUnit.isTrivial = false → g'.slot? u ≠ g'.slot? v

namespace ControlSystem.Placed

variable {g g' : Graph} {bounds : ControlBounds}

/-- Apart from a search, only the recorded intervals count. -/
theorem admits (h : Placed g bounds g') (hbounds : bounds.pipelining = false)
    {target source : UnitId} {consumer : ScheduleUnit} {bundle : EdgeBundle} {s t : Nat}
    (htarget : target ∈ g.controlUnits) (hsource : g.IsControl source)
    (hconsumer : g.units[target]? = some consumer) (hbundle : g.bundle? target source = some bundle)
    (hs : g'.slot? source = some s) (ht : g'.slot? target = some t) :
    ∃ offset?, bundle.edge.offset? (g.interval? consumer.block) = .ok offset? ∧
      ∀ offset ∈ offset?, bundle.edge.Admits offset ((t : Int) - (s : Int)) := by
  rw [bundle?_eq hconsumer] at hbundle
  obtain ⟨offset?, hoffset, hmeets⟩ :=
    h.deps htarget hconsumer (Table.mem_entries_of_get?_eq_some hbundle) ht
  have hinterval : bounds.interval? g consumer.block = g.interval? consumer.block := by
    simp [ControlBounds.interval?, hbounds]
  rw [ControlBounds.offset?, hinterval] at hoffset
  exact ⟨offset?, hoffset, fun offset hsome => hmeets offset hsome hsource s hs⟩

theorem exclusive (h : Placed g bounds g') (horder : ControlPath.InOrder g bounds)
    {u v : UnitId} {unit unit' : ScheduleUnit} (hne : u ≠ v) (hu : u ∈ g.controlUnits)
    (hv : v ∈ g.controlUnits) (hunit : g.units[u]? = some unit)
    (hunit' : g.units[v]? = some unit') (hblock : unit.block = unit'.block)
    (hsame : unit.funcUnit = unit'.funcUnit) (hshared : unit.funcUnit.isTrivial = false) :
    g'.slot? u ≠ g'.slot? v := by
  obtain ⟨ordered, order, hframe, hbuild, hholds⟩ := horder
  have hcontrolUnits := controlUnits_eq_of_outline_eq
    (outline_eq_of_skeleton_eq (skeleton_eq_of_frame_eq hframe))
  obtain ⟨start, hstart, hagree⟩ := exists_of_frame_eq hframe.symm hunit
  obtain ⟨start', hstart', hagree'⟩ := exists_of_frame_eq hframe.symm hunit'
  obtain ⟨chain, hchain, _, hmem, hmem'⟩ :=
    IssueOrder.exists_chain_of_mem hbuild hne (hcontrolUnits ▸ hu) (hcontrolUnits ▸ hv) hstart
      hstart' (hagree.block ▸ hagree'.block ▸ hblock)
      (hagree.funcUnit ▸ hagree'.funcUnit ▸ hsame) (hagree.funcUnit ▸ hshared)
  rcases hholds with hnone | horder
  · rw [hnone] at hchain
    exact absurd hchain List.not_mem_nil
  · obtain ⟨s, hs⟩ := h.scheduled hu
    obtain ⟨t, ht⟩ := h.scheduled hv
    rw [hs, ht, ne_eq, Option.some.injEq]
    exact ne_of_sorted (h.chains horder hchain) hmem hmem' hne hs ht

theorem schedules (h : Placed g bounds g') (hbounds : bounds.pipelining = false)
    (horder : ControlPath.InOrder g bounds) : ControlPath.Schedules g g' where
  kept := h.kept
  placed := h.scheduled
  entered := by
    intro id slot hnone hslot
    by_cases hid : id ∈ g.controlUnits
    · exact (h.range hid hnone hslot).1
    · rw [h.untouched hid, hnone] at hslot
      cases hslot
  met := by
    intro target source bundle s t htarget hsource hbundle hdistance hs ht
    obtain ⟨consumer, hconsumer, _⟩ := exists_of_bundle? hbundle
    obtain ⟨offset?, hoffset, hmeets⟩ :=
      h.admits hbounds htarget hsource hconsumer hbundle hs ht
    rw [DepEdge.offset?_of_distance_eq_zero hdistance] at hoffset
    cases hoffset
    exact hmeets _ rfl
  carried := by
    intro target source consumer bundle interval s t htarget hsource hconsumer hinterval hbundle
      _ hs ht
    obtain ⟨offset?, hoffset, hmeets⟩ :=
      h.admits hbounds htarget hsource hconsumer hbundle hs ht
    rw [hinterval] at hoffset
    exact hmeets _ (bundle.edge.offset?_eq_offsetAt hoffset)
  exclusive := h.exclusive horder

end ControlSystem.Placed

namespace ControlPath

variable {now last started : Journaled Graph} {result : PUnit} {g g' before after : Graph}
  {id : UnitId} {slot : Nat}

/-- A schedule is one for a graph with fewer slots, too, if what that lacks issues at
the entry slot. -/
theorem Schedules.of_frame_eq (h : Schedules g g') (hframe : g.frame = before.frame)
    (hkept : ∀ {id slot}, before.slot? id = some slot → g.slot? id = some slot)
    (hentered : ∀ {id slot}, before.slot? id = none → g.slot? id = some slot →
      slot = before.entrySlot)
    (hafter : after.slot? = g'.slot?) : Schedules before after := by
  have hlisted : g.controlUnits = before.controlUnits :=
    controlUnits_eq_of_outline_eq (outline_eq_of_skeleton_eq (skeleton_eq_of_frame_eq hframe))
  have hbundles : g.bundle? = before.bundle? := bundle?_of_frame_eq hframe
  have hisControl : ∀ {id}, before.IsControl id → g.IsControl id :=
    (isControl_iff_of_frame_eq hframe).mpr
  constructor
  case kept =>
    intro id slot hslot
    rw [hafter]
    exact h.kept (hkept hslot)
  case placed =>
    intro id hid
    rw [hafter]
    exact h.placed (hlisted ▸ hid)
  case entered =>
    intro id slot hnone hslot
    rw [hafter] at hslot
    cases hknown : g.slot? id with
    | none => exact entrySlot_of_frame_eq hframe ▸ h.entered hknown hslot
    | some known =>
        obtain rfl := Option.some.inj (hslot.symm.trans (h.kept hknown))
        exact (hentered hnone hknown).ge
  case met =>
    intro target source bundle s t htarget hsource hbundle hdistance hs ht
    rw [hafter] at hs ht
    exact h.met (hlisted ▸ htarget) (hisControl hsource) (hbundles ▸ hbundle) hdistance hs ht
  case carried =>
    intro target source consumer bundle interval s t htarget hsource hconsumer hinterval hbundle
      hdistance hs ht
    rw [hafter] at hs ht
    obtain ⟨consumer', hconsumer', hagree⟩ := exists_of_frame_eq hframe.symm hconsumer
    rw [← interval?_of_frame_eq hframe, hagree.block] at hinterval
    exact h.carried (hlisted ▸ htarget) (hisControl hsource) hconsumer' hinterval
      (hbundles ▸ hbundle) hdistance hs ht
  case exclusive =>
    intro u v unit unit' hne hu hv hunit hunit' hblock hfuncUnit hshared
    obtain ⟨start, hstart, hagree⟩ := exists_of_frame_eq hframe.symm hunit
    obtain ⟨start', hstart', hagree'⟩ := exists_of_frame_eq hframe.symm hunit'
    rw [hafter]
    exact h.exclusive hne (hlisted ▸ hu) (hlisted ▸ hv) hstart hstart'
      (hagree.block ▸ hagree'.block ▸ hblock) (hagree.funcUnit ▸ hagree'.funcUnit ▸ hfuncUnit)
      (hagree.funcUnit ▸ hshared)

theorem slot?_placeEntry (h : placeEntry now = .ok result started)
    (hslot : now.state.slot? id = some slot) : started.state.slot? id = some slot := by
  obtain ⟨_, rfl | ⟨hnone, hslots⟩⟩ := placeEntry_cases h
  · exact hslot
  · rw [hslots, if_neg, hslot]
    rintro rfl
    rw [hnone] at hslot
    cases hslot

theorem eq_entrySlot_of_placeEntry (h : placeEntry now = .ok result started)
    (hnone : now.state.slot? id = none) (hslot : started.state.slot? id = some slot) :
    slot = now.state.entrySlot := by
  obtain ⟨_, rfl | ⟨_, hslots⟩⟩ := placeEntry_cases h
  · rw [hnone] at hslot
    cases hslot
  · rw [hslots] at hslot
    split at hslot
    · exact (Option.some.inj hslot).symm
    · rw [hnone] at hslot
      cases hslot

/-- What a schedule places is the graph that it started from, in which the entry may
have got its slot. -/
theorem exists_placed (hfree : ∃ id ∈ now.state.controlUnits, id ≠ now.state.entryRoot ∧
      now.state.slot? id = none) (h : schedule now = .ok result last) :
    ∃ g bounds, g.frame = now.state.frame ∧
      (∀ {id slot}, now.state.slot? id = some slot → g.slot? id = some slot) ∧
      (∀ {id slot}, now.state.slot? id = none → g.slot? id = some slot →
        slot = now.state.entrySlot) ∧
      bounds.pipelining = false ∧ InOrder g bounds ∧ ∃ placed,
        ControlSystem.Placed g bounds placed ∧ last.state.slot? = placed.slot? := by
  obtain ⟨_, started, hentry, _⟩ := Step.bind_eq_ok.mp h
  obtain ⟨hstarted, hcases⟩ := placeEntry_cases hentry
  have hstillFree : ∃ id ∈ started.state.controlUnits, started.state.slot? id = none := by
    obtain ⟨id, hid, hne, hnone⟩ := hfree
    have hlisted := controlUnits_eq_of_outline_eq
      (outline_eq_of_skeleton_eq (skeleton_eq_of_frame_eq hstarted))
    refine ⟨id, hlisted ▸ hid, ?_⟩
    rcases hcases with rfl | ⟨_, hslots⟩
    · exact hnone
    · rw [hslots, if_neg (Ne.symm hne), hnone]
  obtain ⟨g, bounds, hframe, hslots, hbounds, horder, middle, _, hplaced, hend⟩ :=
    schedule_rounds hentry hstillFree h
  refine ⟨g, bounds, hframe.trans hstarted,
    fun hslot => (hslots _).trans (slot?_placeEntry hentry hslot),
    fun hnone hslot => eq_entrySlot_of_placeEntry hentry hnone ((hslots _).symm.trans hslot),
    hbounds, horder, middle.state, hplaced, ?_⟩
  exact funext (slot?_of_bare_eq (keeps_reanchor.of_eq_ok hend))

/-- A schedule of the control path keeps the slots that are there, gives one to every
control unit, and meets all dependencies among control units. -/
theorem schedules_of_schedule
    (hfree : ∃ id ∈ now.state.controlUnits, id ≠ now.state.entryRoot ∧
      now.state.slot? id = none)
    (h : schedule now = .ok result last) : Schedules now.state last.state := by
  obtain ⟨g, bounds, hframe, hkept, hentered, hbounds, horder, placed, hplaced, hslots⟩ :=
    exists_placed hfree h
  exact (hplaced.schedules hbounds horder).of_frame_eq hframe hkept hentered hslots

/-- Two blocks.  In the first one a unit has its slot already, in the second one, which
repeats every two slots, a unit is frozen against another one. -/
def crossing : Checked Graph := do
  let g := ((Graph.start 0 1).createUnit (.op 0) 0 ⟨.memoryBus, 0⟩ true 1).createUnit
    (.op 1) 0 ⟨.memoryBus, 0⟩ true 1
  let g := ((g.createUnit (.op 2) 0 .trivial true 0).createEntry 1).createUnit
    (.op 3) 1 ⟨.memoryBus, 0⟩ true 1
  let g := (g.createUnit (.op 4) 1 .trivial true 0).setInterval 1 2
  let g ← g.changeUnit 2 (·.place 2)
  let g ← g.setTerminator 0 3
  let g ← g.changeUnit 5 fun unit => { unit with fixedTiming := true }
  let g ← g.addDep 1 0 (.value 0)
  let g ← g.addDep 2 0 (.value 0)
  let g ← g.addDep 3 2 (.value 1)
  let g ← g.addDep 4 3 (.value 0)
  let g ← g.addDep 5 4 (.value 0)
  let g ← g.addDep 5 6 (.loopCarried 3 2)
  let g ← g.addDep 6 5 (.fixedTiming 1)
  g.addDep 6 1 (.value 4)

theorem schedules_of_schedule_crossing :
    ∃ g last, crossing = .ok g ∧ schedule ⟨g, {}⟩ = .ok ⟨⟩ last ∧
      (∃ id ∈ g.controlUnits, id ≠ g.entryRoot ∧ g.slot? id = none) ∧
        Schedules g last.state := by
  have hruns : (crossing.toOption.any fun g => schedule.succeeds ⟨g, {}⟩ fun _ =>
      decide (∃ id ∈ g.controlUnits, id ≠ g.entryRoot ∧ g.slot? id = none)) = true := by
    decide +kernel
  obtain ⟨g, hg, hruns⟩ := (Option.any_eq_true _ _).mp hruns
  obtain ⟨_, last, hrun, htest⟩ := Step.exists_of_succeeds hruns
  have hcrossing : crossing = .ok g := by
    cases hresult : crossing <;> simp_all [Except.toOption]
  have hfree := of_decide_eq_true htest
  exact ⟨g, last, hcrossing, hrun, hfree, schedules_of_schedule hfree hrun⟩

end ControlPath

end SlotScheduling
