import SlotScheduling.Proofs.Failures
import SlotScheduling.Proofs.Graph.Ends
import SlotScheduling.Proofs.Pipeline.Finding
import SlotScheduling.Proofs.Reachable

/-!
# Interrupted delays

The moves of pipelined blocks are delayed one by one.  Where all of them have room in their blocks,
every move comes one interval later, and no other unit moves.  Otherwise the first move without room
ends the run, and the moves before it stay where they were delayed to.
-/

namespace SlotScheduling.Graph

variable {g g' : Graph} {id other : UnitId} {interval : Nat} {failure : Failure}
  {now last : Journaled Graph} {result : PUnit} {ends : List (BlockId × Option Nat)}

/-- The unit is a move of a block that is pipelined with the interval. -/
def IsDue (g : Graph) (id : UnitId) (interval : Nat) : Prop :=
  ∃ unit, g.units[id]? = some unit ∧ unit.phi = true ∧ g.interval? unit.block = some interval

/-- The unit has a slot, and stays within its block when it comes the interval later. -/
def HasRoom (g : Graph) (id : UnitId) (interval : Nat) : Prop :=
  ∃ unit slot end_, g.units[id]? = some unit ∧ unit.slot = some slot ∧
    slot + interval < Word.count ∧ g.endSlot unit.block = .ok (some end_) ∧ slot + interval ≤ end_

/-- Why a unit cannot come the interval later. -/
inductive LacksRoom (g : Graph) (id : UnitId) (interval : Nat) : Failure → Prop
  | unplaced (hslot : g.slot? id = none) :
      LacksRoom g id interval
        (.error (.broken .unscheduledUnit s!"PHI [{id}] is not scheduled"))
  | overflow {slot : Nat} (hslot : g.slot? id = some slot) (hword : Word.count ≤ slot + interval) :
      LacksRoom g id interval (.fault .overflow)
  | late {unit : ScheduleUnit} {slot end_ : Nat} (hunit : g.units[id]? = some unit)
      (hslot : unit.slot = some slot) (hend : g.endSlot unit.block = .ok (some end_))
      (hlate : end_ < slot + interval) :
      LacksRoom g id interval (.error (.broken .phiSlot
        s!"PHI [{id}] would move to {slot + interval} past the end of block#{unit.block} ({end_})"))

theorem LacksRoom.not_hasRoom (h : g.LacksRoom id interval failure) : ¬g.HasRoom id interval := by
  rintro ⟨unit, slot, end_, hunit, hslot, hword, hend, hle⟩
  cases h with
  | unplaced hnone =>
      rw [slot?_eq hunit, hslot] at hnone
      cases hnone
  | overflow hslot' hlarge =>
      rw [slot?_eq hunit, hslot] at hslot'
      cases hslot'
      exact absurd hword (Nat.not_lt.mpr hlarge)
  | late hunit' hslot' hend' hlate =>
      rw [hunit] at hunit'
      cases hunit'
      rw [hslot] at hslot'
      cases hslot'
      rw [hend] at hend'
      cases hend'
      exact absurd hle (Nat.not_le.mpr hlate)

theorem IsDue.unique {interval' : Nat} (h : g.IsDue id interval) (h' : g.IsDue id interval') :
    interval = interval' := by
  obtain ⟨unit, hunit, _, hinterval⟩ := h
  obtain ⟨unit', hunit', _, hinterval'⟩ := h'
  obtain rfl := Option.some.inj (hunit.symm.trans hunit')
  exact Option.some.inj (hinterval.symm.trans hinterval')

/-! ## One unit -/

/-- The ends that delays are compared with are those of the blocks with an interval. -/
def ReadsEnds (g : Graph) (ends : List (BlockId × Option Nat)) : Prop :=
  ∀ {block interval}, g.interval? block = some interval →
    g.endSlot block = .ok ((ends.find? (·.1 = block)).bind Prod.snd)

theorem delayPhi_of_not_isDue {unit : ScheduleUnit} (hunit : now.state.units[id]? = some unit)
    (hdue : ∀ interval, ¬now.state.IsDue id interval) : delayPhi ends id now = .ok ⟨⟩ now := by
  rw [delayPhi, Step.current_bind, Step.lift_bind_of_eq_ok (unit_eq_ok.mpr hunit)]
  split
  next hphi =>
    cases hinterval : now.state.interval? unit.block with
    | none => rfl
    | some interval => exact absurd ⟨unit, hunit, hphi, hinterval⟩ (hdue interval)
  next => rfl

/-- A move of a pipelined block comes one interval later, or is refused and nothing has changed. -/
theorem delayPhi_of_isDue (hg : g.Listed) (hends : g.ReadsEnds ends)
    (hcontrol : id ∈ g.controlUnits) (hframe : now.state.frame = g.frame)
    (hsame : now.state.slot? id = g.slot? id) (hdue : g.IsDue id interval) :
    (g.HasRoom id interval ∧ ∃ slot g', g.slot? id = some slot ∧
        now.state.changeUnit id (·.place (slot + interval)) = .ok g' ∧
        delayPhi ends id now = .ok ⟨⟩ ⟨g', now.journal⟩) ∨
      ∃ failure, g.LacksRoom id interval failure ∧ delayPhi ends id now = .error failure now := by
  obtain ⟨unit, hunit, hphi, hinterval⟩ := hdue
  obtain ⟨unit', hunit', hagree⟩ := exists_of_frame_eq hframe.symm hunit
  have hslot' : unit'.slot = unit.slot := by rw [← slot?_eq hunit', hsame, slot?_eq hunit]
  have hinterval' : now.state.interval? unit'.block = some interval := by
    rw [interval?_of_frame_eq hframe, ← hagree.block, hinterval]
  rw [delayPhi, Step.current_bind, Step.lift_bind_of_eq_ok (unit_eq_ok.mpr hunit'),
    if_pos (hagree.phi ▸ hphi)]
  simp only [hinterval', hslot']
  cases hslot : unit.slot with
  | none => exact Or.inr ⟨_, .unplaced ((slot?_eq hunit).trans hslot), rfl⟩
  | some slot =>
      obtain ⟨unit'', hunit'', hunitControl⟩ := hg.control.mp hcontrol
      obtain rfl := Option.some.inj (hunit.symm.trans hunit'')
      obtain ⟨end_, hend, _⟩ :=
        IsTaken.exists_endSlot ⟨id, unit, hunit, hunitControl, rfl, hslot⟩ hg
      have hfound : ((ends.find? (·.1 = unit'.block)).bind Prod.snd).getD 0 = end_ := by
        rw [← hagree.block, Except.ok.inj ((hends hinterval).symm.trans hend)]
        rfl
      by_cases hword : slot + interval < Word.count
      swap
      · refine Or.inr ⟨_, .overflow ((slot?_eq hunit).trans hslot) (Nat.not_lt.mp hword), ?_⟩
        have hfault : Word.add slot interval = .error (.fault .overflow) := by
          rw [Word.add, Word.check, if_neg hword, faulty]
        exact Step.bind_eq_error.mpr (Or.inl (Step.lift_eq_error.mpr ⟨hfault, rfl⟩))
      simp only [Step.lift_bind_of_eq_ok (Word.add_eq_ok.mpr ⟨hword, rfl⟩), hfound]
      split
      next hlate =>
        refine Or.inr ⟨_, .late hunit hslot hend hlate, ?_⟩
        rw [hagree.block]
        rfl
      next hle =>
        obtain ⟨g', hg'⟩ : ∃ g', now.state.changeUnit id (·.place (slot + interval)) = .ok g' :=
          ⟨_, changeUnit_eq_ok.mpr ⟨lt_size_of_getElem? hunit', rfl⟩⟩
        refine Or.inl ⟨⟨unit, slot, end_, hunit, hslot, hword, hend, Nat.not_lt.mp hle⟩, slot, g',
          (slot?_eq hunit).trans hslot, hg', ?_⟩
        exact Step.updateChecked_eq_ok.mpr ⟨g', hg', rfl⟩

/-! ## All units -/

/-- The moves among the units have been delayed, each within its block, and nothing else moved. -/
structure DelayedAmong (ids : List UnitId) (g g' : Graph) : Prop where
  frame : g'.frame = g.frame
  moved : ∀ {id interval}, id ∈ ids → g.IsDue id interval →
    g.HasRoom id interval ∧ g'.slot? id = (g.slot? id).map (· + interval)
  kept : ∀ {id}, (id ∈ ids → ∀ interval, ¬g.IsDue id interval) → g'.slot? id = g.slot? id

/-- How the delays end: all units are through, or the first one of the rest lacks room. -/
inductive DelaysEnd (g : Graph) :
    List UnitId → EStateM.Result Failure (Journaled Graph) PUnit → Prop
  | through {last : Journaled Graph} : DelaysEnd g [] (.ok ⟨⟩ last)
  | refused {id : UnitId} {rest : List UnitId} {interval : Nat} {failure : Failure}
      {last : Journaled Graph} (hdue : g.IsDue id interval)
      (hroom : g.LacksRoom id interval failure) : DelaysEnd g (id :: rest) (.error failure last)

variable {done ids : List UnitId}

theorem delayedAmong_nil (g : Graph) : DelayedAmong [] g g :=
  ⟨rfl, fun hmem => absurd hmem List.not_mem_nil, fun _ => rfl⟩

theorem DelayedAmong.pass (h : DelayedAmong done g g') (hdue : ∀ interval, ¬g.IsDue id interval) :
    DelayedAmong (done ++ [id]) g g' where
  frame := h.frame
  moved := by
    intro other interval hmem hother
    rcases List.mem_append.mp hmem with hmem | hmem
    · exact h.moved hmem hother
    · exact absurd (List.mem_singleton.mp hmem ▸ hother) (hdue interval)
  kept := fun hkept => h.kept fun hmem => hkept (List.mem_append_left _ hmem)

theorem DelayedAmong.delay {slot : Nat} {middle : Graph} (h : DelayedAmong done g middle)
    (hid : id ∉ done) (hdue : g.IsDue id interval) (hroom : g.HasRoom id interval)
    (hslot : g.slot? id = some slot)
    (hplace : middle.changeUnit id (·.place (slot + interval)) = .ok g') :
    DelayedAmong (done ++ [id]) g g' where
  frame := (frame_changeUnit hplace fun _ => rfl).trans h.frame
  moved := by
    intro other interval' hmem hother
    rw [slot?_changeUnit_place hplace]
    rcases List.mem_append.mp hmem with hmem | hmem
    · have hne : id ≠ other := fun heq => hid (heq ▸ hmem)
      rw [if_neg hne]
      exact h.moved hmem hother
    · obtain rfl := List.mem_singleton.mp hmem
      obtain rfl := hdue.unique hother
      rw [if_pos rfl, hslot]
      exact ⟨hroom, rfl⟩
  kept := by
    intro other hkept
    rw [slot?_changeUnit_place hplace, if_neg]
    · exact h.kept fun hmem => hkept (List.mem_append_left _ hmem)
    · rintro rfl
      exact hkept (by simp) interval hdue

theorem forM_delayPhi_ends (hg : g.Listed) (hends : g.ReadsEnds ends)
    (hids : ∀ id ∈ ids, id ∈ g.controlUnits) (hnodup : (done ++ ids).Nodup)
    (hnow : DelayedAmong done g now.state) :
    ∃ through rest, ids = through ++ rest ∧
      DelayedAmong (done ++ through) g (Step.stateOf (ids.forM (delayPhi ends) now)) ∧
      DelaysEnd g rest (ids.forM (delayPhi ends) now) := by
  induction ids generalizing done now with
  | nil => exact ⟨[], [], rfl, (List.append_nil done).symm ▸ hnow, .through⟩
  | cons id ids ih =>
      obtain ⟨hid, hids⟩ := List.forall_mem_cons.mp hids
      have hnew : id ∉ done := fun hmem =>
        (List.nodup_append.mp hnodup).2.2 id hmem id List.mem_cons_self rfl
      have hsplit : (done ++ [id] ++ ids).Nodup := by simpa using hnodup
      have hrest : ∀ {middle : Journaled Graph}, delayPhi ends id now = .ok ⟨⟩ middle →
          DelayedAmong (done ++ [id]) g middle.state → ∃ through rest, id :: ids = through ++ rest ∧
            DelayedAmong (done ++ through) g (Step.stateOf ((id :: ids).forM (delayPhi ends) now)) ∧
            DelaysEnd g rest ((id :: ids).forM (delayPhi ends) now) := by
        intro middle hfirst hmiddle
        have hrun : (id :: ids).forM (delayPhi ends) now = ids.forM (delayPhi ends) middle :=
          Step.bind_of_eq_ok hfirst
        obtain ⟨through, rest, rfl, hdelayed, hend⟩ := ih hids hsplit hmiddle
        refine ⟨id :: through, rest, rfl, ?_, hrun ▸ hend⟩
        rw [hrun]
        simpa using hdelayed
      obtain ⟨unit, hunit, _⟩ := hg.control.mp hid
      obtain ⟨unit', hunit', hagree⟩ := exists_of_frame_eq hnow.frame.symm hunit
      by_cases hdue : ∃ interval, g.IsDue id interval
      · obtain ⟨interval, hdue⟩ := hdue
        have hsame : now.state.slot? id = g.slot? id := hnow.kept fun hmem => absurd hmem hnew
        rcases delayPhi_of_isDue hg hends hid hnow.frame hsame hdue with
          ⟨hroom, slot, g', hslot, hplace, hfirst⟩ | ⟨failure, hroom, hfirst⟩
        · exact hrest hfirst (hnow.delay hnew hdue hroom hslot hplace)
        · have hrun : (id :: ids).forM (delayPhi ends) now = .error failure now :=
            Step.bind_eq_error.mpr (Or.inl hfirst)
          rw [hrun]
          exact ⟨[], id :: ids, rfl, (List.append_nil done).symm ▸ hnow, .refused hdue hroom⟩
      · have hdue := not_exists.mp hdue
        refine hrest (delayPhi_of_not_isDue hunit' ?_) (hnow.pass hdue)
        rintro interval ⟨found, hfound, hphi, hinterval⟩
        obtain rfl := Option.some.inj (hunit'.symm.trans hfound)
        rw [interval?_of_frame_eq hnow.frame, ← hagree.block] at hinterval
        exact hdue interval ⟨unit, hunit, hagree.phi ▸ hphi, hinterval⟩

theorem readsEnds_of_mapM (hg : g.Listed) (journal : Journal) : ∃ ends,
    (g.intervals.keys.mapM fun block => return (block, ← g.endSlot block) : Step Graph _)
        ⟨g, journal⟩ = .ok ends ⟨g, journal⟩ ∧ g.ReadsEnds ends := by
  obtain ⟨ends, hends, hfound⟩ := exists_mapM_endSlot hg g.intervals.keys journal
  refine ⟨ends, hends, fun {block interval} hinterval => ?_⟩
  obtain ⟨end_, hend, hread⟩ := hfound block (Table.mem_keys_iff.mpr ⟨interval, hinterval⟩)
  rw [hend, hread]

/-- Delaying the moves goes through the control units in order, up to the first move that lacks
room. -/
theorem delayPhis_ends (hg : now.state.Listed) : ∃ through rest,
    now.state.controlUnits = through ++ rest ∧
      DelayedAmong through now.state (Step.stateOf (delayPhis now)) ∧
      DelaysEnd now.state rest (delayPhis now) := by
  obtain ⟨ends, hread, hends⟩ := readsEnds_of_mapM hg now.journal
  have hrun : delayPhis now = now.state.controlUnits.forM (delayPhi ends) now := by
    rw [delayPhis, Step.current_bind]
    exact Step.bind_of_eq_ok hread
  rw [hrun]
  have hnodup : ([] ++ now.state.controlUnits).Nodup := hg.controlNodup
  exact forM_delayPhi_ends hg hends (fun _ hid => hid) hnodup (delayedAmong_nil _)

/-- The moves can be delayed if each of them has room. -/
theorem exists_delayPhis_iff (hg : now.state.Listed) :
    (∃ last, delayPhis now = .ok ⟨⟩ last) ↔ ∀ id ∈ now.state.controlUnits, ∀ interval,
      now.state.IsDue id interval → now.state.HasRoom id interval := by
  obtain ⟨through, rest, hunits, hdelayed, hend⟩ := delayPhis_ends hg
  generalize delayPhis now = run at hdelayed hend
  cases hend with
  | @through last =>
      rw [List.append_nil] at hunits
      exact ⟨fun _ id hid interval hdue => (hdelayed.moved (hunits ▸ hid) hdue).1,
        fun _ => ⟨last, rfl⟩⟩
  | refused hdue hroom =>
      refine ⟨fun hok => ?_, fun hall => ?_⟩
      · obtain ⟨_, hok⟩ := hok
        cases hok
      · exact absurd (hall _ (hunits ▸ by simp) _ hdue) hroom.not_hasRoom

theorem delayedAmong_of_delayPhis (hg : now.state.Listed) (h : delayPhis now = .ok result last) :
    DelayedAmong now.state.controlUnits now.state last.state := by
  obtain ⟨through, rest, hunits, hdelayed, hend⟩ := delayPhis_ends hg
  rw [h] at hdelayed hend
  cases hend
  rw [hunits, List.append_nil]
  exact hdelayed

/-- What was delayed before a move lacks room stays delayed. -/
theorem delayPhis_eq_error (hg : now.state.Listed) (h : delayPhis now = .error failure last) :
    ∃ through id rest interval, now.state.controlUnits = through ++ id :: rest ∧
      now.state.IsDue id interval ∧ now.state.LacksRoom id interval failure ∧
      DelayedAmong through now.state last.state := by
  obtain ⟨through, rest, hunits, hdelayed, hend⟩ := delayPhis_ends hg
  rw [h] at hdelayed hend
  cases hend with
  | refused hdue hroom => exact ⟨through, _, _, _, hunits, hdue, hroom, hdelayed⟩

/-- A graph with a single move is left as it was if that move lacks room. -/
theorem slot?_of_delayPhis_eq_error (hg : now.state.Listed)
    (hlone : ∀ {id other interval interval'}, now.state.IsDue id interval →
      now.state.IsDue other interval' → id = other)
    (h : delayPhis now = .error failure last) : last.state.slot? = now.state.slot? := by
  obtain ⟨through, id, rest, interval, hunits, hdue, _, hdelayed⟩ := delayPhis_eq_error hg h
  have hnew : id ∉ through := by
    have hnodup := hg.controlNodup
    rw [hunits] at hnodup
    exact fun hmem => (List.nodup_append.mp hnodup).2.2 id hmem id List.mem_cons_self rfl
  funext other
  refine hdelayed.kept fun hmem interval' hother => ?_
  exact hnew (hlone hdue hother ▸ hmem)

/-- A pipelined block with two moves, of which only the first one has room. -/
def crowdedMoves : Graph :=
  (start 0 1).after [
    .createUnit (.op 0) 0 .trivial true 0,
    .createUnit (.op 1) 0 .trivial true 0,
    .setPhi 1,
    .setPhi 2,
    .createExit 0,
    .place 0 1,
    .place 1 2,
    .place 2 4,
    .place 3 5,
    .setInterval 0 3]

/-- The first move stays delayed when the second one is refused. -/
theorem slots_of_crowdedMoves : crowdedMoves.slot? 1 = some 2 ∧
    ∃ failure last, delayPhis ⟨crowdedMoves, {}⟩ = .error failure last ∧
      last.state.slot? 1 = some 5 ∧ last.state.slot? 2 = some 4 := by
  refine ⟨?_, _, _, rfl, ?_, ?_⟩ <;> decide +kernel

end SlotScheduling.Graph
