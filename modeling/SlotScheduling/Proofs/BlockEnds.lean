import SlotScheduling.Proofs.Pipeline.Climbs
import SlotScheduling.Proofs.Region.Alone

/-!
# The end of a block

The exit of a block on its own comes last among the units that it waits for, directly or over
other units that have a place behind what they wait for.  It waits for every move and for every
control unit that nothing uses; not, however, for a control unit that only dangling units use.
-/

namespace SlotScheduling

namespace Graph

variable {program : Program} {basic : BasicBlock} {g : Graph} {block : BlockId}
  {entrySlot interval slot last : Nat} {id exit source user : UnitId}

/-- Within one iteration the user waits for the source, and has its place behind it. -/
def IsFollowedBy (g : Graph) (source user : UnitId) : Prop :=
  g.WaitsWithin source user ∧ (g.IsControl user ∨ g.IsNeeded user)

/-- The exit waits for the unit, directly or over units with a place behind what they wait for. -/
def IsAwaited (g : Graph) (id : UnitId) : Prop :=
  ∃ exit, g.exitRoot = some exit ∧ Relation.ReflTransGen g.IsFollowedBy id exit

theorem Enclosed.disablePipeline (hg : Enclosed block entrySlot exit g) :
    Enclosed block entrySlot exit g.disablePipeline where
  toOfBlock := hg.toOfBlock.disablePipeline
  tidy := hg.tidy
  entryNoLoop := by simp [Graph.disablePipeline]
  exitRoot := hg.exitRoot
  exitControl := hg.exitControl
  last := hg.last
  loopOp := by simp [Graph.disablePipeline]
  first := hg.first
  final := hg.final
  waits := hg.waits
  moves := hg.moves
  used := hg.used
  entryUnit := hg.entryUnit
  exitUnit := hg.exitUnit

/-- No unit of the data path is a move. -/
theorem Alone.isControl_of_isMove (h : Alone program basic entrySlot g)
    (hmove : g.IsMove id) : g.IsControl id := by
  obtain ⟨unit, hunit, hphi⟩ := hmove
  by_cases hexit : g.exitRoot = some id
  · obtain ⟨exit, hroot, hcontrol, _⟩ := h.exit
    exact Option.some.inj (hroot.symm.trans hexit) ▸ hcontrol
  · exact ⟨unit, hunit, (h.parts hexit hunit).moves hphi⟩

/-- A unit that the exit depends on is followed by it. -/
theorem Enclosed.isFollowedBy_exit (hg : Enclosed block entrySlot exit g)
    (hdepends : g.DependsOn exit source) : g.IsFollowedBy source exit := by
  obtain ⟨unit, hunit, hkey⟩ := hdepends
  obtain ⟨bundle, hbundle⟩ := Table.mem_keys_iff.mp hkey
  have hbundle : g.bundle? exit source = some bundle := (bundle?_eq hunit source).trans hbundle
  exact ⟨⟨bundle, hbundle, (hg.waits hbundle).2⟩, Or.inl hg.exitControl⟩

/-- Units are placed in the order in which they follow each other.  A move, which is made one
interval late, need not come before its users, but comes before the exit. -/
structure EndsAt (exit : UnitId) (g : Graph) : Prop where
  placed : ∀ {id}, id < g.units.size → ∃ slot, g.slot? id = some slot
  moves : ∀ {id}, g.IsMove id → g.IsFollowedBy id exit
  before : ∀ {source s t}, g.IsFollowedBy source exit → g.slot? source = some s →
    g.slot? exit = some t → s ≤ t
  ordered : ∀ {source user s t}, g.IsFollowedBy source user → ¬g.IsMove source →
    g.slot? source = some s → g.slot? user = some t → s ≤ t

theorem EndsAt.le (h : EndsAt exit g) (hawaited : Relation.ReflTransGen g.IsFollowedBy id exit)
    (hslot : g.slot? id = some slot) (hlast : g.slot? exit = some last) : slot ≤ last := by
  induction hawaited using Relation.ReflTransGen.head_induction_on generalizing slot with
  | refl => exact Nat.le_of_eq (Option.some.inj (hslot.symm.trans hlast))
  | @head source user hfollowed _ ih =>
      by_cases hmove : g.IsMove source
      · exact h.before (h.moves hmove) hslot hlast
      · have hbundle := hfollowed.1.choose_spec.1
        obtain ⟨unit, hunit, _⟩ := exists_of_bundle? hbundle
        obtain ⟨slot', hslot'⟩ := h.placed (lt_size_of_getElem? hunit)
        exact Nat.le_trans (h.ordered hfollowed hmove hslot hslot') (ih hslot')

theorem IsStraightLine.endsAt (h : g.IsStraightLine entrySlot)
    (hplaced : ∀ {id}, id < g.units.size → ∃ slot, g.slot? id = some slot)
    (hmoves : ∀ {id}, g.IsMove id → g.IsFollowedBy id exit) : EndsAt exit g := by
  have hordered : ∀ {source user s t}, g.IsFollowedBy source user → g.slot? source = some s →
      g.slot? user = some t → s ≤ t := by
    rintro source user s t ⟨⟨bundle, hbundle, hlocal⟩, hcounts⟩ hs ht
    obtain ⟨unit, hunit, hdep⟩ := exists_of_bundle? hbundle
    obtain ⟨s', t', hs', ht', hle⟩ := h.ordered hunit (counts_of_getElem? hunit hcounts) hdep hlocal
    obtain rfl := Option.some.inj (hs.symm.trans hs')
    obtain rfl := Option.some.inj (((slot?_eq hunit).symm.trans ht).symm.trans ht')
    exact Nat.le_of_add_right_le hle
  exact ⟨hplaced, hmoves, hordered, fun hfollowed _ => hordered hfollowed⟩

theorem IsPipelinedAt.endsAt (h : g.IsPipelinedAt entrySlot interval)
    (hwaits : g.ExitsAfterMoves interval) (hexit : g.exitRoot = some exit)
    (hcontrol : g.IsControl exit)
    (hplaced : ∀ {id}, id < g.units.size → ∃ slot, g.slot? id = some slot)
    (hmoves : ∀ {id}, g.IsMove id → g.IsFollowedBy id exit) : EndsAt exit g := by
  have hordered : ∀ {source user s t}, g.IsFollowedBy source user →
      ¬g.IsMove source ∨ user = exit → g.slot? source = some s → g.slot? user = some t → s ≤ t := by
    rintro source user s t ⟨⟨bundle, hbundle, hlocal⟩, hcounts⟩ hcases hs ht
    obtain ⟨unit, hunit, hdep⟩ := exists_of_bundle? hbundle
    obtain ⟨producer, hproducer, s', t', hs', ht', hgap⟩ :=
      h.ordered hunit (counts_of_getElem? hunit hcounts) hdep
    obtain rfl := Option.some.inj (((slot?_eq hproducer).symm.trans hs).symm.trans hs')
    obtain rfl := Option.some.inj (((slot?_eq hunit).symm.trans ht).symm.trans ht')
    rw [hlocal] at hgap
    by_cases hphi : producer.phi = true
    · have hmove : g.IsMove source := ⟨producer, hproducer, hphi⟩
      obtain rfl := hcases.resolve_left (not_not_intro hmove)
      rw [if_pos hphi, hwaits _ _ _ hexit hcontrol hmove hbundle] at hgap
      simpa using hgap
    · rw [if_neg hphi] at hgap
      simp at hgap
      omega
  exact ⟨hplaced, hmoves, fun hfollowed => hordered hfollowed (Or.inr rfl),
    fun hfollowed hmove => hordered hfollowed (Or.inl hmove)⟩

end Graph

open SlotScheduling.Graph

variable {σ : Type} {program : Program} {basic : BasicBlock} {entrySlot : Nat}
  {options : SchedulingOptions} {now last : Journaled σ} {g : Graph}

theorem enclosed_of_eq_ok
    (h : (do
      let g ← Lowering.buildBlock program basic entrySlot
      scheduleApart options g : Step σ Graph) now = .ok g last) :
    ∃ exit, Enclosed basic.id entrySlot exit g.disablePipeline := by
  obtain ⟨built, now', hbuild, hscheduled⟩ := scheduled_of_eq_ok h
  obtain ⟨exit, hbuilt⟩ := Lowering.enclosed_buildBlock hbuild
  exact ⟨exit, hbuilt.disablePipeline.of_skeleton_eq hscheduled.shape⟩

theorem exists_endsAt
    (h : (do
      let g ← Lowering.buildBlock program basic entrySlot
      scheduleApart options g : Step σ Graph) now = .ok g last) :
    ∃ exit, Enclosed basic.id entrySlot exit g.disablePipeline ∧ EndsAt exit g := by
  obtain ⟨exit, henclosed⟩ := enclosed_of_eq_ok h
  have halone := alone_of_eq_ok h
  have hplaced : ∀ {id}, id < g.units.size → ∃ slot, g.slot? id = some slot := fun hid =>
    (halone.placed hid).imp fun _ => And.left
  have hmoves : ∀ {id}, g.IsMove id → g.IsFollowedBy id exit := by
    intro move hmove
    obtain ⟨unit, hunit, hphi⟩ := id hmove
    obtain ⟨unit', hunit', hcontrol⟩ := halone.isControl_of_isMove hmove
    obtain rfl := Option.some.inj (hunit.symm.trans hunit')
    exact henclosed.isFollowedBy_exit (henclosed.moves hunit hcontrol hphi)
  refine ⟨exit, henclosed, ?_⟩
  rcases exists_start h with ⟨_, hstart, hfinished⟩ | ⟨interval, _, hstart, _, hfinished⟩
  · exact (hstart.isStraightLine hfinished).endsAt hplaced hmoves
  · exact (hstart.isPipelinedAt hfinished).endsAt (hstart.moves.of_frame_eq hfinished.frame)
      henclosed.exitRoot henclosed.exitControl hplaced hmoves

/-- The exit of a block comes last among the units that it waits for. -/
theorem exit_last
    (h : (do
      let g ← Lowering.buildBlock program basic entrySlot
      scheduleApart options g : Step σ Graph) now = .ok g last) :
    ∃ exit slot, g.exitRoot = some exit ∧ g.slot? exit = some slot ∧
      ∀ {id s}, g.IsAwaited id → g.slot? id = some s → s ≤ slot := by
  obtain ⟨exit, henclosed, hends⟩ := exists_endsAt h
  obtain ⟨slot, hslot⟩ := hends.placed henclosed.exitControl.lt_size
  refine ⟨exit, slot, henclosed.exitRoot, hslot, ?_⟩
  rintro id s ⟨exit', hexit, hawaited⟩ hs
  obtain rfl := Option.some.inj (henclosed.exitRoot.symm.trans hexit)
  exact hends.le hawaited hs hslot

/-- The exit of a block waits for every move, and for every control unit that nothing else uses. -/
theorem isAwaited_of_unused {id : UnitId}
    (h : (do
      let g ← Lowering.buildBlock program basic entrySlot
      scheduleApart options g : Step σ Graph) now = .ok g last)
    (hid : g.IsControl id)
    (hunused : g.IsMove id ∨ ∀ user, g.DependsOn user id → g.exitRoot = some user) :
    g.IsAwaited id := by
  obtain ⟨exit, henclosed, hends⟩ := exists_endsAt h
  refine ⟨exit, henclosed.exitRoot, ?_⟩
  by_cases hexit : id = exit
  · rw [hexit]
  · refine .single (hunused.elim hends.moves fun hunused => ?_)
    obtain ⟨user, hdepends⟩ := henclosed.used hid hexit
    obtain rfl := Option.some.inj (henclosed.exitRoot.symm.trans (hunused user hdepends))
    exact henclosed.isFollowedBy_exit hdepends

/-- A late control unit that only a dangling unit uses, and an early one behind it. -/
def droppedResult : Program where
  ops := ⟨#[.control "a" 0 .trivial, .control "c" 0 .trivial, .data "z" 0 .trivial,
    .control "b" 0 .trivial]⟩
  oracle :=
    { dependences := fun op =>
        if op = 1 then some [.value 0 5]
        else if op = 2 then some [.value 1 0]
        else some [.liveIn]
      stepsToFinish := fun _ => 0 }

/-- A dangling unit counts as a user, and so the exit does not wait for what it uses. -/
theorem exit_notLast_droppedResult :
    ∃ g last, (do
        let g ← Lowering.buildBlock droppedResult ⟨0, [0, 1, 2, 3]⟩ 1
        scheduleApart {} g : Step PUnit Graph) ⟨⟨⟩, {}⟩ = .ok g last ∧
      ∃ exit id, g.exitRoot = some exit ∧ g.holder? (.op 1) = some id ∧ g.IsControl id ∧
        g.slot? exit = some 1 ∧ g.slot? id = some 6 := by
  have hsucceeds : (do
      let g ← Lowering.buildBlock droppedResult ⟨0, [0, 1, 2, 3]⟩ 1
      scheduleApart {} g : Step PUnit Graph).succeeds ⟨⟨⟩, {}⟩ (fun g =>
        decide (g.exitRoot = some 5 ∧ g.holder? (.op 1) = some 2 ∧ g.slot? 5 = some 1 ∧
          g.slot? 2 = some 6) && (g.units[2]?).any (·.control)) = true := by
    decide +kernel
  obtain ⟨g, last, hrun, htest⟩ := Step.exists_of_succeeds hsucceeds
  rw [Bool.and_eq_true, decide_eq_true_eq, Option.any_eq_true] at htest
  obtain ⟨⟨hexit, hid, hlast, hslot⟩, unit, hunit, hcontrol⟩ := htest
  exact ⟨g, last, hrun, 5, 2, hexit, hid, ⟨unit, hunit, hcontrol⟩, hlast, hslot⟩

end SlotScheduling
