import SlotScheduling.Proofs.Graph.Resets
import SlotScheduling.Proofs.Graph.Tidy

/-!
# Schedules that start over

All graphs that a search for an interval comes to are alike: they differ in slots, and in how long
the exit waits for moves.  Starting over does not fail on them, and its outcome depends on nothing
but the interval, as far as the control path goes.
-/

namespace SlotScheduling.Graph

variable {g h : Graph} {id exit source loop : UnitId} {interval : Nat}

/-- The unit is a move. -/
def IsMove (g : Graph) (id : UnitId) : Prop :=
  ∃ unit, g.units[id]? = some unit ∧ unit.phi = true

instance (g : Graph) (id : UnitId) : Decidable (g.IsMove id) :=
  inferInstanceAs (Decidable (∃ unit ∈ g.units[id]?, unit.phi = true))

/-- The graphs differ in slots and in how long their exits wait for moves. -/
structure Similar (g h : Graph) : Prop where
  skeleton : h.skeleton = g.skeleton
  exitBundles : ∀ {exit source}, g.exitRoot = some exit → ¬g.IsMove source →
    h.bundle? exit source = g.bundle? exit source

/-- The exit of the second graph waits for moves as long as the interval. -/
structure Widened (interval : Nat) (g h : Graph) : Prop extends Similar g h where
  moves : ∀ {exit source bundle}, g.exitRoot = some exit → g.IsMove source →
    h.bundle? exit source = some bundle → bundle.edge.latency = interval

/-- The control path of the second graph starts over with an interval. -/
structure Restarted (interval : Nat) (g h : Graph) : Prop extends Widened interval g h where
  entry : h.slot? g.entryRoot = some g.entrySlot
  loop : ∀ {loop}, 0 < interval → g.loopOp = some loop →
    h.slot? loop = some (g.entrySlot + interval)
  cleared : ∀ {id}, g.IsControl id → id ≠ g.entryRoot → (0 < interval → g.loopOp ≠ some id) →
    h.slot? id = none

theorem Similar.refl (g : Graph) : Similar g g := ⟨rfl, fun _ _ => rfl⟩

theorem Similar.of_frame_eq {h' : Graph} (hlike : Similar g h) (hframe : h'.frame = h.frame) :
    Similar g h' where
  skeleton := (skeleton_eq_of_frame_eq hframe).trans hlike.skeleton
  exitBundles := by
    intro exit source hexit hmove
    rw [bundle?_of_frame_eq hframe]
    exact hlike.exitBundles hexit hmove

theorem Widened.of_frame_eq {h' : Graph} (hwidened : Widened interval g h)
    (hframe : h'.frame = h.frame) : Widened interval g h' where
  toSimilar := hwidened.toSimilar.of_frame_eq hframe
  moves := by
    intro exit source bundle hexit hmove hbundle
    rw [bundle?_of_frame_eq hframe] at hbundle
    exact hwidened.moves hexit hmove hbundle

theorem phi_of_skeleton_eq {unit unit' : ScheduleUnit} (h : unit.skeleton = unit'.skeleton) :
    unit.phi = unit'.phi := by
  have hphi := congrArg ScheduleUnit.phi h
  exact hphi

theorem isMove_of_skeleton_eq (hsame : h.skeleton = g.skeleton) : h.IsMove id ↔ g.IsMove id := by
  have himp : ∀ {g h : Graph}, h.skeleton = g.skeleton → h.IsMove id → g.IsMove id := by
    rintro g h hsame ⟨unit, hunit, hphi⟩
    obtain ⟨unit', hunit', hskeleton, -⟩ := exists_of_skeleton_eq hsame hunit
    exact ⟨unit', hunit', (phi_of_skeleton_eq hskeleton).symm.trans hphi⟩
  exact ⟨himp hsame, himp hsame.symm⟩

theorem exitRoot_of_skeleton_eq (hsame : h.skeleton = g.skeleton) : h.exitRoot = g.exitRoot :=
  eq_of_skeleton_eq (·.exitRoot) hsame fun _ => rfl

/-- The unit waits for each move as long as the interval. -/
def widenUnit (g : Graph) (interval : Nat) (unit : ScheduleUnit) : ScheduleUnit :=
  { unit with deps := unit.deps.modifyIf g.IsMove (·.withLatency interval) }

theorem changeMoves_eq_ok {phis : List UnitId} (hlt : exit < g.units.size) :
    phis.foldlM (fun g phi => g.changeUnit exit fun unit =>
      { unit with deps := unit.deps.modify phi (·.withLatency interval) }) g =
      .ok { g with
        units := g.units.modify exit fun unit =>
          { unit with deps := unit.deps.modifyIf (· ∈ phis) (·.withLatency interval) } } := by
  have hfold : ∀ deps : Table UnitId EdgeBundle,
      deps.modifyIf (· ∈ phis) (·.withLatency interval) =
        phis.foldl (fun deps phi => deps.modify phi (·.withLatency interval)) deps := by
    intro deps
    refine (Table.foldl_modify ?_ phis).symm
    exact fun _ => rfl
  simp only [hfold]
  clear hfold
  induction phis generalizing g with
  | nil =>
      have hsame : g.units.modify exit (fun unit => { unit with deps := unit.deps }) = g.units := by
        refine Array.ext_getElem? fun id => ?_
        rw [Array.getElem?_modify]
        split <;> simp
      simp only [List.foldlM_nil, List.foldl_nil, hsame]
      rfl
  | cons phi rest ih =>
      rw [List.foldlM_cons, changeUnit, if_pos hlt, Checked.ok_bind, ih (by simpa using hlt)]
      congr 2
      refine Array.ext_getElem? fun id => ?_
      simp only [Array.getElem?_modify]
      split <;> simp [List.foldl_cons, Option.map_map, Function.comp_def]

/-- Widening reads the units that the exit depends on, and changes nothing but the exit. -/
theorem widenExit_eq_ok (hexit : g.exitRoot = some exit) :
    g.widenExit interval = .ok h ↔
      (∃ unit, g.units[exit]? = some unit ∧ ∀ source ∈ unit.deps.keys, source < g.units.size) ∧
        h = { g with units := g.units.modify exit (g.widenUnit interval) } := by
  have hwidened : ∀ {unit phis}, g.units[exit]? = some unit →
      unit.deps.keys.filterM (fun source => return (← g.unit source).phi) = .ok phis →
      g.widenExit interval =
        .ok { g with units := g.units.modify exit (g.widenUnit interval) } := by
    intro unit phis hunit hphis
    have hlisted : ∀ source ∈ unit.deps.keys, source ∈ phis ↔ g.IsMove source := by
      intro source hmem
      rw [Checked.mem_filterM hphis, and_iff_right hmem]
      simp only [Checked.bind_eq_ok, unit_eq_ok, Checked.pure_eq_ok]
      exact exists_congr fun unit => and_congr_right fun _ => eq_comm
    rw [widenExit, hexit]
    simp only [unit_eq_ok.mpr hunit, Checked.ok_bind, hphis]
    rw [changeMoves_eq_ok (lt_size_of_getElem? hunit)]
    congr 2
    refine Array.ext_getElem? fun id => ?_
    rw [Array.getElem?_modify, Array.getElem?_modify]
    split
    next heq =>
      rw [← heq, hunit, Option.map_some, Option.map_some, widenUnit, Table.modifyIf_congr hlisted]
    next => rfl
  constructor
  · intro hwiden
    have hrun := hwiden
    rw [widenExit, hexit] at hrun
    obtain ⟨unit, hunit, hrun⟩ := Checked.bind_eq_ok.mp hrun
    obtain ⟨phis, hphis, _⟩ := Checked.bind_eq_ok.mp hrun
    have hunit := unit_eq_ok.mp hunit
    refine ⟨⟨unit, hunit, fun source hmem => ?_⟩, ?_⟩
    · obtain ⟨passes, hpasses⟩ := Checked.exists_of_filterM hphis hmem
      obtain ⟨producer, hproducer, _⟩ := Checked.bind_eq_ok.mp hpasses
      exact lt_size_of_getElem? (unit_eq_ok.mp hproducer)
    · exact Except.ok.inj (hwiden.symm.trans (hwidened hunit hphis))
  · rintro ⟨⟨unit, hunit, hsources⟩, rfl⟩
    obtain ⟨phis, hphis⟩ : ∃ phis, unit.deps.keys.filterM
        (fun source => return (← g.unit source).phi) = .ok phis :=
      Checked.exists_filterM fun source hmem =>
        ⟨_, by rw [unit_eq_ok.mpr (Array.getElem?_eq_getElem (hsources source hmem))]; rfl⟩
    exact hwidened hunit hphis

/-- Widening makes the exit wait for each move as long as the interval. -/
theorem exists_widenExit (hg : g.WellFormed) (hexit : g.exitRoot = some exit)
    (hcontrol : g.IsControl exit) (interval : Nat) : ∃ g', g.widenExit interval = .ok g' ∧
      (∀ {source}, ¬g.IsMove source → g'.bundle? exit source = g.bundle? exit source) ∧
      ∀ {source bundle}, g.IsMove source → g'.bundle? exit source = some bundle →
        bundle.edge.latency = interval := by
  obtain ⟨unit, hunit, -⟩ := hcontrol
  have hsources : ∀ source ∈ unit.deps.keys, source < g.units.size := by
    intro source hmem
    obtain ⟨bundle, hbundle⟩ := Table.mem_keys_iff.mp hmem
    obtain ⟨producer, hproducer⟩ :=
      hg.exists_source hunit (Table.mem_entries_of_get?_eq_some hbundle)
    exact lt_size_of_getElem? hproducer
  refine ⟨_, (widenExit_eq_ok hexit).mpr ⟨⟨unit, hunit, hsources⟩, rfl⟩, ?_⟩
  have hbundle : ∀ source, bundle? { g with units := g.units.modify exit (g.widenUnit interval) }
      exit source = if g.IsMove source then (g.bundle? exit source).map (·.withLatency interval)
        else g.bundle? exit source := by
    intro source
    rw [bundle?_eq hunit, bundle?, Array.getElem?_modify, if_pos rfl, hunit]
    exact Table.get?_modifyIf
  refine ⟨fun hmove => by rw [hbundle, if_neg hmove], fun hmove hnew => ?_⟩
  rw [hbundle, if_pos hmove] at hnew
  obtain ⟨old, _, rfl⟩ := Option.map_eq_some_iff.mp hnew
  rfl

/-- The exit waits for each move as long as the interval. -/
def ExitsAfterMoves (interval : Nat) (g : Graph) : Prop :=
  ∀ exit source bundle, g.exitRoot = some exit → g.IsControl exit → g.IsMove source →
    g.bundle? exit source = some bundle → bundle.edge.latency = interval

theorem ExitsAfterMoves.of_frame_eq (hg : g.ExitsAfterMoves interval) (hframe : h.frame = g.frame) :
    h.ExitsAfterMoves interval := by
  intro exit source bundle hexit hcontrol hmove hbundle
  have hskeleton := skeleton_eq_of_frame_eq hframe
  rw [bundle?_of_frame_eq hframe] at hbundle
  exact hg _ _ _ ((exitRoot_of_skeleton_eq hskeleton).symm.trans hexit)
    ((isControl_iff_of_frame_eq hframe).mp hcontrol) ((isMove_of_skeleton_eq hskeleton).mp hmove)
    hbundle

theorem exitsAfterMoves_of_resetControl {now last : Journaled Graph} {result : PUnit}
    (hg : now.state.WellFormed) (h : resetControl interval now = .ok result last) :
    last.state.ExitsAfterMoves interval := by
  intro exit source bundle hexit hcontrol hmove hbundle
  obtain ⟨cleared, placed, hclear, hplaced, hwiden⟩ := resetControl_cases h
  have hframe : placed.frame = now.state.frame := by
    rw [← (clearControl_cases hclear).1]
    rcases hplaced with ⟨_, rfl⟩ | ⟨_, _, _, _, hplace⟩
    · rfl
    · exact frame_changeUnit hplace fun _ => rfl
  have hwell := hg.of_outline_eq (outline_eq_of_skeleton_eq (skeleton_eq_of_frame_eq hframe))
  have hskeleton := (widenExit_cases hwiden).1
  obtain ⟨widened, hwiden', _, hmoves⟩ := exists_widenExit hwell
    ((exitRoot_of_skeleton_eq hskeleton).symm.trans hexit)
    (isControl_of_outline_eq (outline_eq_of_skeleton_eq hskeleton) hcontrol) interval
  obtain rfl := Except.ok.inj (hwiden'.symm.trans hwiden)
  exact hmoves ((isMove_of_skeleton_eq hskeleton).mp hmove) hbundle

theorem exists_clearControl (hg : g.WellFormed) (hroot : g.IsControl g.entryRoot) :
    ∃ g', g.clearControl = .ok g' := by
  obtain ⟨middle, hmiddle⟩ : ∃ middle, g.changeUnits g.controlUnits (·.unplace) = .ok middle :=
    exists_changeUnits fun id hid => (hg.control.mp hid).lt_size
  have hsize := size_eq_of_skeleton_eq
    (skeleton_eq_of_frame_eq (frame_changeUnits hmiddle fun _ => rfl))
  refine ⟨_, Checked.bind_eq_ok.mpr ⟨middle, hmiddle, changeUnit_eq_ok.mpr ⟨?_, rfl⟩⟩⟩
  exact hsize ▸ hroot.lt_size

/-- The rest of a restart, once the control path is cleared and the loop operation placed. -/
theorem exists_restarted {block : BlockId} {entrySlot : Nat} (hg : Enclosed block entrySlot exit g)
    (hsimilar : Similar g h)
    (hentry : h.slot? g.entryRoot = some g.entrySlot)
    (hloop : ∀ {loop}, 0 < interval → g.loopOp = some loop →
      h.slot? loop = some (g.entrySlot + interval))
    (hcleared : ∀ {id}, g.IsControl id → id ≠ g.entryRoot →
      (0 < interval → g.loopOp ≠ some id) → h.slot? id = none) :
    ∃ h', h.widenExit interval = .ok h' ∧ Restarted interval g h' := by
  have hroot := exitRoot_of_skeleton_eq hsimilar.skeleton
  have houtline := outline_eq_of_skeleton_eq hsimilar.skeleton
  have hwell : h.WellFormed := hg.toWellFormed.of_outline_eq houtline
  obtain ⟨h', hwiden, hkept, hmoves⟩ := exists_widenExit hwell (hroot.trans hg.exitRoot)
    (isControl_of_outline_eq houtline.symm hg.exitControl) interval
  obtain ⟨hskeleton, _, hslots⟩ := widenExit_cases hwiden
  refine ⟨h', hwiden, ⟨⟨⟨hskeleton.trans hsimilar.skeleton, ?_⟩, ?_⟩, ?_, ?_, ?_⟩⟩
  · intro exit' source hexit' hmove
    obtain rfl : exit = exit' := Option.some.inj (hg.exitRoot.symm.trans hexit')
    rw [hkept fun hmove' => hmove ((isMove_of_skeleton_eq hsimilar.skeleton).mp hmove')]
    exact hsimilar.exitBundles hexit' hmove
  · intro exit' source bundle hexit' hmove hbundle
    obtain rfl : exit = exit' := Option.some.inj (hg.exitRoot.symm.trans hexit')
    exact hmoves ((isMove_of_skeleton_eq hsimilar.skeleton).mpr hmove) hbundle
  · rw [hslots, hentry]
  · intro loop hpos hloopOp
    rw [hslots, hloop hpos hloopOp]
  · intro id hid hne hnotLoop
    rw [hslots, hcleared hid hne hnotLoop]

/-- Starting over succeeds on whatever a search comes to. -/
theorem exists_resetControl {block : BlockId} {entrySlot : Nat} {now : Journaled Graph}
    (hg : Enclosed block entrySlot exit g) (hsimilar : Similar g now.state)
    (hloop : 0 < interval → ∃ loop, g.loopOp = some loop)
    (hword : 0 < interval → g.entrySlot + interval < Word.count) :
    ∃ last, resetControl interval now = .ok ⟨⟩ last ∧ Restarted interval g last.state := by
  have houtline := outline_eq_of_skeleton_eq hsimilar.skeleton
  have hwell : now.state.WellFormed := hg.toWellFormed.of_outline_eq houtline
  have hsize := size_eq_of_skeleton_eq hsimilar.skeleton
  have hlisted : ∀ {id}, g.IsControl id → id ∈ now.state.controlUnits := fun hid =>
    hwell.control.mpr (isControl_of_outline_eq houtline.symm hid)
  obtain ⟨cleared, hclear⟩ := exists_clearControl hwell
    (isControl_of_outline_eq houtline.symm hg.root)
  obtain ⟨hframe, hentry, hnone⟩ := clearControl_cases hclear
  have hsame : Similar g cleared := hsimilar.of_frame_eq hframe
  have hentrySlot : now.state.entrySlot = g.entrySlot :=
    eq_of_skeleton_eq (·.entrySlot) hsimilar.skeleton fun _ => rfl
  rw [hentrySlot] at hentry
  simp only [resetControl, Step.updateChecked_bind_eq_ok, hclear, Except.ok.injEq,
    exists_eq_left']
  rcases Nat.eq_zero_or_pos interval with rfl | hpos
  · obtain ⟨h', hwiden, hrestarted⟩ := exists_restarted hg hsame hentry
      (fun hpos => absurd hpos (Nat.lt_irrefl 0))
      (fun hid hne _ => hnone _ (hlisted hid) hne)
    rw [if_neg (Nat.lt_irrefl 0)]
    exact ⟨_, Step.updateChecked_eq_ok.mpr ⟨h', hwiden, rfl⟩, hrestarted⟩
  · obtain ⟨loop, hloopOp⟩ := hloop hpos
    have hloopOp' : cleared.loopOp = some loop :=
      (eq_of_skeleton_eq (·.loopOp) hsame.skeleton fun _ => rfl).trans hloopOp
    have hclearedSlot : cleared.entrySlot = g.entrySlot :=
      eq_of_skeleton_eq (·.entrySlot) hsame.skeleton fun _ => rfl
    have hlt : loop < cleared.units.size :=
      size_eq_of_skeleton_eq hsame.skeleton ▸ (hg.loop hloopOp).lt_size
    obtain ⟨placed, hplace⟩ :
        ∃ placed, cleared.changeUnit loop (·.place (g.entrySlot + interval)) = .ok placed :=
      ⟨_, changeUnit_eq_ok.mpr ⟨hlt, rfl⟩⟩
    have hslot := slot?_changeUnit_place hplace
    have hplaced := hsame.of_frame_eq (frame_changeUnit hplace fun _ => rfl)
    have hne : loop ≠ g.entryRoot := fun heq => hg.entryNoLoop (heq ▸ hloopOp)
    obtain ⟨h', hwiden, hrestarted⟩ := exists_restarted hg hplaced
      (by rw [hslot, if_neg hne]; exact hentry)
      (fun _ hloopOp' => by
        obtain rfl := Option.some.inj (hloopOp.symm.trans hloopOp')
        rw [hslot, if_pos rfl])
      (fun hid hne hnotLoop => by
        rw [hslot, if_neg (by rintro rfl; exact hnotLoop hpos hloopOp)]
        exact hnone _ (hlisted hid) hne)
    have hadd : Word.add g.entrySlot interval = .ok (g.entrySlot + interval) :=
      Word.add_eq_ok.mpr ⟨hword hpos, rfl⟩
    rw [if_pos hpos, Step.current_bind]
    simp only [hloopOp', hclearedSlot, Step.lift_bind_eq_ok, hadd, Except.ok.injEq,
      exists_eq_left', Step.updateChecked_bind_eq_ok, hplace, Step.updateChecked_eq_ok]
    exact ⟨_, ⟨h', hwiden, rfl⟩, hrestarted⟩

end SlotScheduling.Graph
