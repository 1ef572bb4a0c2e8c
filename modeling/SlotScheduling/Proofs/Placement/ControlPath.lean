import SlotScheduling.Placement.ControlPath
import SlotScheduling.Proofs.Graph.Blocks
import SlotScheduling.Proofs.Graph.Resets
import SlotScheduling.Proofs.Placement.Placed
import SlotScheduling.Proofs.Placement.Reanchored

/-!
# The scheduled control path

The slots of a scheduled control path solve the system of the graph that the
schedule started from, whether or not an issue order called for a second round.
In the graph of a single block no dependency is anchored anew.
-/

namespace SlotScheduling

open ConstraintSystem

variable {g g' : Graph} {block : BlockId} {entrySlot : Nat} {now last : Journaled Graph}
  {result : PUnit}

theorem Checked.orMalformed_eq_ok {α : Type} {work : Checked α} {value : α} :
    work.orMalformed = .ok value ↔ work = .ok value := by
  unfold orMalformed
  split <;> simp

/-! ## Anchors -/

theorem Graph.OfBlock.isAnchored (hg : g.OfBlock block entrySlot) : g.IsAnchored := by
  intro id unit dep _ _ hunit hdep hcross
  rw [(hg.units hunit).within dep hdep] at hcross
  cases hcross

theorem Graph.OfBlock.reanchor_eq (hg : now.state.OfBlock block entrySlot) :
    Graph.reanchor now = .ok ⟨⟩ now := by
  have hunits : ∀ unit ∈ now.state.units.toList,
      ∃ moves, Reanchoring.ofUnit now.state unit = .ok moves := by
    intro unit hmem
    obtain ⟨id, hunit⟩ := List.mem_iff_getElem?.mp hmem
    rw [Array.getElem?_toList] at hunit
    unfold Reanchoring.ofUnit
    split
    · exact ⟨[], rfl⟩
    · refine ⟨[], Checked.filterMapM_of_eq_none fun dep hdep => ?_⟩
      exact if_pos (Or.inl ((hg.units hunit).within dep hdep))
  obtain ⟨lists, hlists⟩ := Checked.exists_mapM_eq_ok hunits
  have hall : Reanchoring.all now.state = .ok lists.flatten := by
    rw [Reanchoring.all, hlists]
    rfl
  rw [Graph.reanchor, Step.current_bind, Step.lift_bind_of_eq_ok hall,
    Reanchoring.all_eq_nil hg.isAnchored hall]
  rfl

theorem Graph.reanchor_eq_ok (h : Graph.reanchor now = .ok result last)
    (hg : now.state.OfBlock block entrySlot) : last = now := by
  rw [hg.reanchor_eq] at h
  cases h
  rfl

/-- Taking back the slots of a round leaves the graph that the round started from. -/
theorem ControlSystem.Placed.unplace {bounds : ControlBounds} {placed : List UnitId}
    {cleared : Graph} (h : ControlSystem.Placed g bounds g')
    (hplaced : ∀ id, id ∈ placed ↔ id ∈ g.controlUnits ∧ g.slot? id = none)
    (hcleared : g'.changeUnits placed (·.unplace) = .ok cleared) :
    cleared.frame = g.frame ∧ ∀ id, cleared.slot? id = g.slot? id := by
  refine ⟨(Graph.frame_changeUnits hcleared fun _ => rfl).trans h.frame, fun id => ?_⟩
  rw [Graph.slot?_changeUnits_unplace hcleared]
  split
  next hmem => exact ((hplaced id).mp hmem).2.symm
  next hmem =>
    by_cases hcontrol : id ∈ g.controlUnits
    · cases hslot : g.slot? id with
      | none => exact absurd ((hplaced id).mpr ⟨hcontrol, hslot⟩) hmem
      | some slot => exact h.kept hslot
    · exact h.untouched hcontrol

namespace ControlPath

/-- The entry has a slot, which is the entry slot unless it had one before. -/
theorem placeEntry_cases (h : placeEntry now = .ok result last) :
    last.state.frame = now.state.frame ∧
      (last = now ∨ now.state.slot? now.state.entryRoot = none ∧
        ∀ id, last.state.slot? id =
          if now.state.entryRoot = id then some now.state.entrySlot else now.state.slot? id) := by
  obtain ⟨g, hg, rfl⟩ := Step.updateChecked_eq_ok.mp h
  obtain ⟨unit, hunit, hg⟩ := Checked.bind_eq_ok.mp hg
  split at hg
  next hnone =>
    have hslot := Graph.slot?_eq (Graph.unit_eq_ok.mp hunit)
    exact ⟨Graph.frame_changeUnit hg fun _ => rfl,
      Or.inr ⟨hslot.trans hnone, Graph.slot?_changeUnit_place hg⟩⟩
  next =>
    obtain rfl := Checked.pure_eq_ok.mp hg
    exact ⟨rfl, Or.inl rfl⟩

theorem placeEntry_eq_ok {slot : Nat} (hslot : now.state.slot? now.state.entryRoot = some slot)
    (h : placeEntry now = .ok result last) : last = now := by
  obtain ⟨_, rfl | ⟨hnone, _⟩⟩ := placeEntry_cases h
  · rfl
  · rw [hslot] at hnone
    cases hnone

/-- The units of a first round are placed again, from the slots that were there
before it. -/
theorem placeInOrder_placed {bounds : ControlBounds} {placed : List UnitId}
    {order : IssueOrder} (hfirst : ControlSystem.Placed g bounds now.state)
    (hplaced : ∀ id, id ∈ placed ↔ id ∈ g.controlUnits ∧ g.slot? id = none)
    (h : placeInOrder placed order now = .ok result last) :
    ∃ g', g'.frame = g.frame ∧ (∀ id, g'.slot? id = g.slot? id) ∧
      ControlSystem.Placed g' { order := some order } last.state := by
  simp only [placeInOrder, Step.updateChecked_bind_eq_ok, Step.current_bind,
    Step.lift_bind_eq_ok, Step.note_bind, Step.updateChecked_eq_ok] at h
  obtain ⟨g', hcleared, system, hsystem, slots, hslots, g'', hplace, rfl⟩ := h
  obtain ⟨base, hdescribes⟩ := ControlSystem.exists_describes hsystem
  obtain ⟨hframe, hfree⟩ := hfirst.unplace hplaced hcleared
  refine ⟨g', hframe, hfree, ?_⟩
  exact hdescribes.placed (Checked.orMalformed_eq_ok.mp hslots) hplace

/-- Units that share a function unit are in an issue order, which the bounds hold
unless it has no chains. -/
def InOrder (g : Graph) (bounds : ControlBounds) : Prop :=
  ∃ ordered order, ordered.frame = g.frame ∧ IssueOrder.build ordered = .ok order ∧
    (order.chains = [] ∨ bounds.order = some order)

/-- The schedule solves the system of a graph with the same frame, in which no
slots but those of the start were known, before its dependencies are anchored. -/
theorem schedule_rounds {started : Journaled Graph} (hentry : placeEntry now = .ok result started)
    (hfree : ∃ id ∈ started.state.controlUnits, started.state.slot? id = none)
    {result' : PUnit} (h : schedule now = .ok result' last) :
    ∃ g bounds, g.frame = started.state.frame ∧ (∀ id, g.slot? id = started.state.slot? id) ∧
      bounds.pipelining = false ∧ InOrder g bounds ∧ ∃ middle result'',
        ControlSystem.Placed g bounds middle.state ∧
          Graph.reanchor middle = .ok result'' last := by
  obtain ⟨_, started', hentry', hrest⟩ := Step.bind_eq_ok.mp h
  obtain ⟨rfl, rfl⟩ := EStateM.Result.ok.inj (hentry.symm.trans hentry')
  simp only [Step.current_bind, Step.lift_bind_eq_ok, Step.note_bind] at hrest
  obtain ⟨system, hsystem, hrest⟩ := hrest
  obtain ⟨base, hdescribes⟩ := ControlSystem.exists_describes hsystem
  obtain ⟨id, hid, hnone⟩ := hfree
  rw [if_neg (hdescribes.unknowns_ne_zero hid hnone)] at hrest
  simp only [Step.current_bind, Step.lift_bind_eq_ok, Step.updateChecked_bind_eq_ok] at hrest
  obtain ⟨slots, hslots, g', hplace, order, horder, hrest⟩ := hrest
  have hslots := Checked.orMalformed_eq_ok.mp hslots
  have hfirst := hdescribes.placed hslots hplace
  by_cases hempty : order.isEmpty = false
  · rw [if_pos hempty] at hrest
    obtain ⟨_, middle, hsecond, hend⟩ := Step.bind_eq_ok.mp hrest
    obtain ⟨g'', hframe, hslots', hlast⟩ :=
      placeInOrder_placed hfirst (fun _ => hdescribes.mem_placed hslots) hsecond
    refine ⟨g'', _, hframe, hslots', rfl, ⟨g', order, ?_, horder, Or.inr rfl⟩, middle, _, hlast,
      hend⟩
    exact hfirst.frame.trans hframe.symm
  · rw [if_neg hempty] at hrest
    have hnone : order.chains = [] := by simpa [IssueOrder.isEmpty] using hempty
    exact ⟨started.state, _, rfl, fun _ => rfl, rfl,
      ⟨g', order, hfirst.frame, horder, Or.inl hnone⟩, _, _, hfirst, hrest⟩

/-- Where the entry has its slot, nothing is known beyond the slots of the start. -/
theorem schedule_cases (h : schedule now = .ok result last) {slot : Nat}
    (hslot : now.state.slot? now.state.entryRoot = some slot)
    (hfree : ∃ id ∈ now.state.controlUnits, now.state.slot? id = none) :
    ∃ g bounds, g.frame = now.state.frame ∧ (∀ id, g.slot? id = now.state.slot? id) ∧
      bounds.pipelining = false ∧ InOrder g bounds ∧ ∃ middle result',
        ControlSystem.Placed g bounds middle.state ∧
          Graph.reanchor middle = .ok result' last := by
  obtain ⟨_, started, hentry, _⟩ := Step.bind_eq_ok.mp h
  obtain rfl := placeEntry_eq_ok hslot hentry
  exact schedule_rounds hentry hfree h

/-- In the graph of a single block no dependency is anchored anew. -/
theorem schedule_placed (h : schedule now = .ok result last)
    (hg : now.state.OfBlock block entrySlot) {slot : Nat}
    (hslot : now.state.slot? now.state.entryRoot = some slot)
    (hfree : ∃ id ∈ now.state.controlUnits, now.state.slot? id = none) :
    ∃ g bounds, g.frame = now.state.frame ∧ (∀ id, g.slot? id = now.state.slot? id) ∧
      bounds.pipelining = false ∧ ControlSystem.Placed g bounds last.state := by
  obtain ⟨g, bounds, hframe, hslots, hbounds, _, middle, _, hplaced, hend⟩ :=
    schedule_cases h hslot hfree
  have hblock := hg.of_frame_eq (hplaced.frame.trans hframe)
  obtain rfl := Graph.reanchor_eq_ok hend hblock
  exact ⟨g, bounds, hframe, hslots, hbounds, hplaced⟩

end ControlPath

end SlotScheduling
