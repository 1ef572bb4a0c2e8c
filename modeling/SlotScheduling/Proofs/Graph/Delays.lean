import SlotScheduling.Proofs.Graph.Resets
import SlotScheduling.Proofs.Graph.WellFormed

/-!
# Delayed moves

Once the interval of a loop is recorded, each of its moves comes one interval
later, and no other unit changes its slot.
-/

namespace SlotScheduling.Graph

variable {g g' : Graph} {id : UnitId} {interval : Nat} {now last : Journaled Graph}
  {result : PUnit} {ends : List (BlockId × Option Nat)}

/-- By how much a unit is delayed. -/
def delayOf (g : Graph) (interval : Nat) (id : UnitId) : Nat :=
  match g.units[id]? with
  | some unit => if unit.phi then interval else 0
  | none => 0

theorem delayOf_eq {unit : ScheduleUnit} (hunit : g.units[id]? = some unit) :
    g.delayOf interval id = if unit.phi then interval else 0 := by
  simp [delayOf, hunit]

theorem delayOf_of_frame_eq (h : g'.frame = g.frame) :
    g'.delayOf interval id = g.delayOf interval id := by
  cases hunit' : g'.units[id]? with
  | some unit' =>
      obtain ⟨unit, hunit, hagree⟩ := exists_of_frame_eq h hunit'
      rw [delayOf_eq hunit', delayOf_eq hunit, hagree.phi]
  | none =>
      have hsize := size_eq_of_skeleton_eq (skeleton_eq_of_frame_eq h)
      have hunit : g.units[id]? = none := by
        rw [Array.getElem?_eq_none_iff] at hunit' ⊢
        omega
      simp [delayOf, hunit, hunit']

/-- The second graph is the first one with some units delayed. -/
structure Delayed (interval : Nat) (ids : List UnitId) (g g' : Graph) : Prop where
  frame : g'.frame = g.frame
  kept : ∀ {id}, id ∉ ids → g'.slot? id = g.slot? id
  slots : ∀ {id}, id ∈ ids → g'.slot? id = (g.slot? id).map (· + g.delayOf interval id)
  words : ∀ {id slot}, id ∈ ids → g.slot? id = some slot → slot < Word.count →
    slot + g.delayOf interval id < Word.count

theorem delayed_of_keep (hphi : g.delayOf interval id = 0) : Delayed interval [id] g g := by
  refine ⟨rfl, fun _ => rfl, fun hid => ?_, fun hid _ hslot => ?_⟩
  · rw [List.mem_singleton.mp hid, hphi]
    simp
  · rw [List.mem_singleton.mp hid, hphi]
    exact hslot

/-- What delaying one unit does: nothing, or a later slot for a move of a pipelined block. -/
theorem delayPhi_cases (h : delayPhi ends id now = .ok result last) :
    ∃ unit, now.state.units[id]? = some unit ∧
      (last = now ∧ (unit.phi = true → now.state.interval? unit.block = none) ∨
        ∃ interval slot, unit.phi = true ∧ now.state.interval? unit.block = some interval ∧
          unit.slot = some slot ∧ slot + interval < Word.count ∧
          now.state.changeUnit id (·.place (slot + interval)) = .ok last.state) := by
  rw [delayPhi, Step.current_bind] at h
  obtain ⟨unit, hunit, h⟩ := Step.lift_bind_eq_ok.mp h
  refine ⟨unit, unit_eq_ok.mp hunit, ?_⟩
  split at h
  next hphi =>
    cases hinterval : now.state.interval? unit.block with
    | none =>
        rw [hinterval] at h
        exact Or.inl ⟨(Step.pure_eq_ok.mp h).2, fun _ => rfl⟩
    | some interval =>
        rw [hinterval] at h
        cases hslot : unit.slot with
        | none =>
            rw [hslot] at h
            exact absurd h Step.fail_ne_ok
        | some slot =>
            rw [hslot] at h
            obtain ⟨moved, hmoved, h⟩ := Step.lift_bind_eq_ok.mp h
            obtain ⟨hword, rfl⟩ := Word.add_eq_ok.mp hmoved
            split at h
            · exact absurd h Step.fail_ne_ok
            obtain ⟨g', hchange, rfl⟩ := Step.updateChecked_eq_ok.mp h
            exact Or.inr ⟨interval, slot, hphi, rfl, rfl, hword, hchange⟩
  next hphi => exact Or.inl ⟨(Step.pure_eq_ok.mp h).2, fun htrue => absurd htrue hphi⟩

theorem delayed_delayPhi
    (hinterval : ∀ {unit}, now.state.units[id]? = some unit →
      now.state.interval? unit.block = some interval)
    (h : delayPhi ends id now = .ok result last) :
    Delayed interval [id] now.state last.state := by
  obtain ⟨unit, hunit, ⟨rfl, hnone⟩ | ⟨_, slot, hphi, hfound, hslot, hword, hchange⟩⟩ :=
    delayPhi_cases h
  · have hphi : unit.phi = false := by
      by_contra hphi
      have hfound := hinterval hunit
      rw [hnone ((Bool.not_eq_false _).mp hphi)] at hfound
      cases hfound
    refine delayed_of_keep ?_
    rw [delayOf_eq hunit, hphi]
    rfl
  · have hdelay : now.state.delayOf interval id = interval := by
      rw [delayOf_eq hunit, if_pos hphi]
    rw [hinterval hunit] at hfound
    cases hfound
    have hslots := slot?_changeUnit_place hchange
    refine ⟨frame_changeUnit hchange fun _ => rfl, fun {other} hother => ?_, ?_, ?_⟩
    · rw [hslots, if_neg fun heq => hother (List.mem_singleton.mpr heq.symm)]
    · intro other hother
      obtain rfl := List.mem_singleton.mp hother
      rw [hslots, if_pos rfl, slot?_eq hunit, hslot, hdelay, Option.map_some]
    · intro other slot' hother hslot' _
      obtain rfl := List.mem_singleton.mp hother
      rw [slot?_eq hunit, hslot] at hslot'
      cases hslot'
      rw [hdelay]
      exact hword

theorem Delayed.cons {middle : Graph} {ids : List UnitId} (hid : id ∉ ids)
    (hfirst : Delayed interval [id] g middle) (hrest : Delayed interval ids middle g') :
    Delayed interval (id :: ids) g g' where
  frame := hrest.frame.trans hfirst.frame
  kept := by
    intro other hother
    rw [List.mem_cons, not_or] at hother
    rw [hrest.kept hother.2, hfirst.kept (by simpa using hother.1)]
  slots := by
    intro other hother
    rcases List.mem_cons.mp hother with rfl | hother
    · rw [hrest.kept hid, hfirst.slots (by simp)]
    · have hne : other ∉ [id] := fun heq => hid (List.mem_singleton.mp heq ▸ hother)
      rw [hrest.slots hother, hfirst.kept hne, delayOf_of_frame_eq hfirst.frame]
  words := by
    intro other slot hother hslot hword
    rcases List.mem_cons.mp hother with rfl | hother
    · exact hfirst.words (by simp) hslot hword
    · have hne : other ∉ [id] := fun heq => hid (List.mem_singleton.mp heq ▸ hother)
      rw [← delayOf_of_frame_eq hfirst.frame]
      exact hrest.words hother ((hfirst.kept hne).trans hslot) hword

theorem delayed_forM {ids : List UnitId} (hnodup : ids.Nodup)
    (hinterval : ∀ {id : UnitId} {unit : ScheduleUnit}, now.state.units[id]? = some unit →
      now.state.interval? unit.block = some interval)
    (h : ids.forM (delayPhi ends) now = .ok result last) :
    Delayed interval ids now.state last.state := by
  induction ids generalizing now with
  | nil =>
      obtain ⟨_, rfl⟩ := Step.pure_eq_ok.mp h
      exact ⟨rfl, fun _ => rfl, fun hid => absurd hid List.not_mem_nil,
        fun hid => absurd hid List.not_mem_nil⟩
  | cons id rest ih =>
      obtain ⟨_, middle, hfirst, h⟩ := Step.bind_eq_ok.mp h
      rw [List.nodup_cons] at hnodup
      have hfirst := delayed_delayPhi hinterval hfirst
      have hintervals : middle.state.interval? = now.state.interval? :=
        interval?_of_frame_eq hfirst.frame
      have hrest := ih hnodup.2 (fun {id unit} hunit => ?_) h
      · exact hfirst.cons hnodup.1 hrest
      · obtain ⟨unit', hunit', hagree⟩ := exists_of_frame_eq hfirst.frame hunit
        rw [hintervals, hagree.block]
        exact hinterval hunit'

/-- The ends of blocks are read first, and then the control units are delayed one by one. -/
theorem delayPhis_stages (h : delayPhis now = .ok result last) :
    ∃ (ends : List (BlockId × Option Nat)) (middle : Journaled Graph), middle.state = now.state ∧
      middle.state.controlUnits.forM (delayPhi ends) middle = .ok result last := by
  rw [delayPhis, Step.current_bind] at h
  obtain ⟨ends, middle, hends, h⟩ := Step.bind_eq_ok.mp h
  have hsame : id middle.state = id now.state := by
    refine Step.Keeps.of_eq_ok (Step.keeps_mapM fun block => ?_) hends
    exact (Step.keeps_lift _).bind fun _ => Step.keeps_pure _
  simp only [id] at hsame
  exact ⟨ends, middle, hsame, hsame ▸ h⟩

theorem delayed_delayPhis (hg : now.state.Listed)
    (hinterval : ∀ {id : UnitId} {unit : ScheduleUnit}, now.state.units[id]? = some unit →
      now.state.interval? unit.block = some interval)
    (h : delayPhis now = .ok result last) :
    Delayed interval now.state.controlUnits now.state last.state := by
  obtain ⟨ends, middle, hsame, h⟩ := delayPhis_stages h
  rw [← hsame] at hg hinterval ⊢
  exact delayed_forM hg.controlNodup hinterval h

/-! ## Delays in any graph -/

/-- No unit has moved to an earlier slot, and a unit that is no move has kept its slot. -/
structure Later (g g' : Graph) : Prop where
  frame : g'.frame = g.frame
  slots : ∀ {id slot}, g.slot? id = some slot → ∃ slot', g'.slot? id = some slot' ∧ slot ≤ slot'
  kept : ∀ {id : UnitId} {unit : ScheduleUnit}, g.units[id]? = some unit → unit.phi = false →
    g'.slot? id = g.slot? id

theorem Later.refl (g : Graph) : Later g g :=
  ⟨rfl, fun {_ slot} hslot => ⟨slot, hslot, Nat.le_refl slot⟩, fun _ _ => rfl⟩

theorem Later.trans {middle : Graph} (h : Later g middle) (h' : Later middle g') :
    Later g g' where
  frame := h'.frame.trans h.frame
  slots := by
    intro id slot hslot
    obtain ⟨slot', hslot', hle⟩ := h.slots hslot
    obtain ⟨slot'', hslot'', hle'⟩ := h'.slots hslot'
    exact ⟨slot'', hslot'', Nat.le_trans hle hle'⟩
  kept := by
    intro id unit hunit hphi
    obtain ⟨unit', hunit', hagree⟩ := exists_of_frame_eq h.frame.symm hunit
    rw [h'.kept hunit' (hagree.phi ▸ hphi), h.kept hunit hphi]

theorem later_delayPhi (h : delayPhi ends id now = .ok result last) :
    Later now.state last.state := by
  obtain ⟨unit, hunit, ⟨rfl, _⟩ | ⟨interval, slot, hphi, _, hslot, _, hchange⟩⟩ :=
    delayPhi_cases h
  · exact Later.refl _
  have hslots := slot?_changeUnit_place hchange
  refine ⟨frame_changeUnit hchange fun _ => rfl, fun {other s} hother => ?_,
    fun {other unit'} hother hkeep => ?_⟩
  · rw [hslots]
    split
    next heq =>
      subst heq
      rw [slot?_eq hunit, hslot] at hother
      cases hother
      exact ⟨slot + interval, rfl, Nat.le_add_right slot interval⟩
    next => exact ⟨s, hother, Nat.le_refl s⟩
  · rw [hslots, if_neg]
    rintro rfl
    rw [hunit] at hother
    cases hother
    rw [hphi] at hkeep
    cases hkeep

/-- What the delay of one control unit keeps true is true of a graph whose moves are delayed. -/
theorem delayPhis_induction {P : Graph → Prop}
    (hdelay : ∀ {ends : List (BlockId × Option Nat)} {id : UnitId} {before after : Journaled Graph}
      {result : PUnit}, id ∈ now.state.controlUnits → P before.state →
        delayPhi ends id before = .ok result after → P after.state)
    (hnow : P now.state) (h : delayPhis now = .ok result last) : P last.state := by
  obtain ⟨ends, middle, hsame, h⟩ := delayPhis_stages h
  rw [← hsame] at hdelay hnow
  exact Step.forM_induction (fun _ hid _ _ _ hbefore hround => hdelay hid hbefore hround) hnow h

theorem later_delayPhis (h : delayPhis now = .ok result last) : Later now.state last.state :=
  delayPhis_induction (P := Later now.state)
    (fun _ hbefore hdelay => hbefore.trans (later_delayPhi hdelay)) (Later.refl _) h

end SlotScheduling.Graph
