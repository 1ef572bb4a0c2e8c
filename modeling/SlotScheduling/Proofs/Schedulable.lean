import SlotScheduling.Proofs.Arithmetic
import SlotScheduling.Proofs.Earliest
import SlotScheduling.Proofs.Placement.Seated

/-!
# Straight-line code that can be scheduled

Where every operation of a block waits for earlier ones, the control path never stands in the way
of a schedule, and neither do the units of the data path that a control unit needs.  The units that
nothing needs can: they are put into the last slot of the block before any other unit of the data
path has its slot.  So there is a schedule if and only if, in the earliest slots of all, each of
them would be ready in the last slot of the control path.
-/

namespace SlotScheduling

open SlotScheduling.Graph

namespace Graph

variable {g h placed : Graph} {orders : UnitId → UnitId → Prop} {slots first : UnitId → Int}
  {id source user exit : UnitId} {block : BlockId} {entrySlot : Nat}

/-! ## Early slots -/

/-- Starting over makes no latency of a built block larger. -/
theorem Enclosed.latencySum_rested (hg : Enclosed block entrySlot exit g) :
    g.rested.latencySum ≤ g.latencySum := by
  have hsimilar : Similar g (⟨g, {}⟩ : Journaled Graph).state := .refl g
  obtain ⟨last, hreset, hrestarted⟩ := exists_resetControl hg hsimilar
    (fun hpos => absurd hpos (Nat.lt_irrefl 0)) fun hpos => absurd hpos (Nat.lt_irrefl 0)
  obtain ⟨-, rfl⟩ := resetControl_zero_eq_ok_iff.mp hreset
  exact hrestarted.toWidened.latencySum_le hg

/-- In order, the lowest slots leave out no time in which nothing is waited for. -/
theorem Earliest.le_latencySum (hslots : g.Earliest (g.Turns first) slots) (hg : g.Tidy)
    (hid : id < g.units.size) :
    slots id ≤ g.entrySlot + (g.latencySum + g.units.size : Nat) := by
  obtain ⟨waits, hwaits⟩ : ∃ waits, waits =
      g.waitsFor ++ (List.range g.units.size).map fun id => (id, 1) := ⟨_, rfl⟩
  have hsum : (waits.map Prod.snd).sum = g.latencySum + g.units.size := by
    simp [hwaits, sum_waitsFor, Function.comp_def]
  have hwaiting : ∀ {source user : UnitId} {wait : Nat}, (source, wait) ∈ waits →
      slots source + wait ≤ slots user →
        Compression.compress (DataPath.inFlight waits slots) g.entrySlot (slots source) + wait ≤
          Compression.compress (DataPath.inFlight waits slots) g.entrySlot (slots user) := by
    intro source user wait hmem hle
    have hspan : (slots source, wait) ∈ DataPath.inFlight waits slots :=
      List.mem_map_of_mem (f := fun wait : UnitId × Nat => (slots wait.1, wait.2)) hmem
    have := Compression.compress_waits g.entrySlot hspan le_rfl
      (by omega : slots source + ((wait : Int) - 0) ≤ slots user)
    omega
  have hrespects : g.Respects (g.Turns first) fun id =>
      Compression.compress (DataPath.inFlight waits slots) g.entrySlot (slots id) := by
    refine ⟨?_, fun hid => ?_, fun {user source bundle} hbundle => ?_,
      fun {source user} hturns => ?_⟩
    · rw [Compression.compress_of_le hslots.entry.le, hslots.entry]
    · have := Compression.compress_mono (DataPath.inFlight waits slots) g.entrySlot
        (hslots.after hid)
      rwa [Compression.compress_of_le le_rfl] at this
    · have hmem : (source, bundle.edge.latency) ∈ waits :=
        hwaits ▸ List.mem_append_left _ (mem_waitsFor hbundle)
      have := hwaiting hmem (hslots.le hbundle)
      rw [DepEdge.admits_iff_le (hg.loose hbundle)]
      omega
    · have hmem : (source, 1) ∈ waits := hwaits ▸ List.mem_append_right _
        (List.mem_map.mpr ⟨source, List.mem_range.mpr hturns.lt_size.1, rfl⟩)
      have hturn := hslots.turns hturns
      have := hwaiting hmem (by omega : slots source + ((1 : Nat) : Int) ≤ slots user)
      omega
  have hle := hslots.least hrespects hid
  have := Compression.compress_le (DataPath.inFlight waits slots) g.entrySlot (slots id)
  rw [DataPath.sum_inFlight, hsum] at this
  omega

/-! ## Room for what nothing needs -/

/-- In these slots, every unit that is not live would be ready by the last slot of the control path,
as far as it waits for live units of the data path. -/
def LeavesRoom (g : Graph) (slots : UnitId → Int) : Prop :=
  ∀ ⦃user source bundle⦄, g.bundle? user source = some bundle → ¬g.IsLive user →
    g.IsData source → g.IsLive source →
      ∃ last, g.IsControl last ∧ slots source + bundle.edge.latency ≤ slots last

/-- How long the exit waits makes no difference, since it is a control unit. -/
theorem LeavesRoom.of_skeleton_eq (hroom : g.LeavesRoom slots)
    (hg : Enclosed block entrySlot exit g) (hskeleton : h.skeleton = g.skeleton) :
    h.LeavesRoom slots := by
  have houtline := outline_eq_of_skeleton_eq hskeleton
  intro user source bundle hbundle huser hdata hsource
  rw [isLive_of_outline_eq houtline] at huser hsource
  have hne : g.exitRoot ≠ some user := fun hroot =>
    huser (Option.some.inj (hroot.symm.trans hg.exitRoot) ▸ hg.exitControl.isLive hg.toListed)
  rw [bundle?_of_skeleton_eq hskeleton hne] at hbundle
  obtain ⟨last, hlast, hle⟩ := hroom hbundle huser (isData_of_outline_eq houtline hdata) hsource
  exact ⟨last, isControl_of_outline_eq houtline.symm hlast, hle⟩

/-- Some control unit issues no earlier than a live unit. -/
theorem Respects.exists_control_of_isLive (hslots : g.Respects orders slots) (hg : g.Listed)
    (hid : g.IsLive id) : ∃ control, g.IsControl control ∧ slots id ≤ slots control := by
  induction hid with
  | root hroot => exact ⟨_, hg.control.mp hroot, le_rfl⟩
  | source _ hsupplies ih =>
      obtain ⟨control, hcontrol, hle⟩ := ih
      obtain ⟨unit, -, hunit, hkey, -⟩ := hsupplies
      obtain ⟨bundle, hdep⟩ := Table.mem_keys_iff.mp hkey
      exact ⟨control, hcontrol, (hslots.source_le ((bundle?_eq hunit _).trans hdep)).trans hle⟩

end Graph

namespace DataPath

variable {h placed done : Graph} {orders : UnitId → UnitId → Prop} {slots : UnitId → Int}
  {id exit : UnitId} {block : BlockId} {entrySlot : Nat} {options : SchedulingOptions}

/-- The control path of a straight-line block issues in slots that respect the dependencies of all
units. -/
structure Issued (block : BlockId) (entrySlot : Nat) (orders : UnitId → UnitId → Prop)
    (slots : UnitId → Int) (h : Graph) : Prop extends OfBlock block entrySlot h, Tidy h where
  forward : h.Forward
  respects : h.Respects orders slots
  issued : ∀ {id}, h.IsControl id → ∃ slot : Nat, h.slot? id = some slot ∧ slot = slots id

section

variable (hg : Issued block entrySlot orders slots h)

include hg

theorem Issued.gap_eq {user source : UnitId} {bundle : EdgeBundle} {gap : Int}
    (hbundle : h.bundle? user source = some bundle)
    (hgap : bundle.edge.minGap? (h.interval? block) = some gap) : gap = bundle.edge.latency := by
  rw [DepEdge.minGap?, if_pos (hg.forward hbundle).2] at hgap
  exact (Option.some.inj hgap).symm

theorem Issued.seats : Seats block entrySlot slots h where
  toOfBlock := hg.toOfBlock
  toTidy := hg.toTidy
  first := hg.respects.entry
  issued := hg.issued
  after := fun hdata _ => hg.respects.after hdata.lt_size
  before := fun _ hlive => hg.respects.exists_control_of_isLive hg.toListed hlive
  met := fun hbundle _ _ hgap => by
    rw [hg.gap_eq hbundle hgap]
    exact hg.respects.le hbundle

/-! ### From the slots of the data path -/

section

variable (hsorts : Sorts h done)

include hsorts

theorem Issued.slotValue_eq_of_isControl (hid : h.IsControl id) : done.slotValue id = slots id := by
  obtain ⟨slot, hslot, heq⟩ := hg.issued hid
  rw [slotValue_eq ((hsorts.control hid).trans hslot), heq]

variable (hbest : Best options done)

include hbest

/-- No live unit is placed before the entry. -/
theorem Issued.entrySlot_le (hid : h.IsLive id) (hlt : id < h.units.size) :
    (h.entrySlot : Int) ≤ done.slotValue id := by
  rcases isControl_or_isData hlt with hcontrol | hdata
  · rw [hg.slotValue_eq_of_isControl hsorts hcontrol]
    exact hg.respects.after hlt
  · obtain ⟨unit, hunit, -⟩ :=
      exists_of_frame_eq hsorts.frame.symm (Array.getElem?_eq_getElem hlt)
    obtain ⟨start, hstart, hagree⟩ := exists_of_frame_eq hsorts.frame hunit
    have hunfrozen := hagree.fixedTiming.trans (hg.units hstart).unfrozen
    have hfloats := (isFloating_iff_isLive hg.toOfBlock hsorts).mpr ⟨hdata, hid⟩
    have hlow := (hbest.fits.window hunit hfloats hunfrozen).1
    rwa [hagree.block.trans (hg.units hstart).block, hg.seats.firstSlot_eq hsorts] at hlow

/-- What waits for a live unit of the data path, or is one, is placed in time. -/
theorem Issued.slotValue_waits {user source : UnitId} {bundle : EdgeBundle}
    (hbundle : h.bundle? user source = some bundle)
    (hfloats : done.IsFloating user ∨ done.IsFloating source) :
    done.slotValue source + bundle.edge.latency ≤ done.slotValue user := by
  obtain ⟨consumer, hconsumer, hdep⟩ :=
    exists_of_bundle? ((congrFun₂ (bundle?_of_frame_eq hsorts.frame) user source).trans hbundle)
  have hgap := hbest.fits.edges hconsumer hdep hfloats bundle.edge.latency
    (if_pos (hg.forward hbundle).2)
  rw [DepEdge.admits_iff_le (hg.toTidy.loose hbundle)] at hgap
  omega

/-- No live unit is placed earlier than in the earliest slots. -/
theorem Issued.le_slotValue (hslots : h.Earliest orders slots)
    (horders : ∀ {source user}, orders source user → h.IsControl source ∧ h.IsControl user)
    (hid : h.IsLive id) (hlt : id < h.units.size) : slots id ≤ done.slotValue id := by
  classical
  -- Of two assignments to the live units, the lower slots are an assignment again.
  have hrespects : h.Respects orders fun id =>
      if h.IsLive id then min (slots id) (done.slotValue id) else slots id := by
    have hsame : ∀ {id}, h.IsControl id →
        (if h.IsLive id then min (slots id) (done.slotValue id) else slots id) = slots id := by
      intro id hid
      rw [if_pos (hid.isLive hg.toListed), hg.slotValue_eq_of_isControl hsorts hid, min_self]
    refine ⟨(hsame hg.root).trans hslots.entry, fun {id} hid => ?_,
      fun {user source bundle} hbundle => ?_, fun {source user} horder => ?_⟩
    · have hafter := hslots.after hid
      split
      next hlive => exact le_min hafter (hg.entrySlot_le hsorts hbest hlive hid)
      next => exact hafter
    · have hle := hslots.le hbundle
      rw [DepEdge.admits_iff_le (hg.toTidy.loose hbundle)]
      by_cases huser : h.IsLive user
      · have hsource := huser.of_bundle? hg.toOfBlock hbundle
        have hwaits : done.slotValue source + bundle.edge.latency ≤ done.slotValue user := by
          obtain ⟨hlt, hlt'⟩ := lt_size_of_bundle? hg.toWellFormed hbundle
          rcases isControl_or_isData hlt with hcontrol | hdata
          · rcases isControl_or_isData hlt' with hcontrol' | hdata'
            · rwa [hg.slotValue_eq_of_isControl hsorts hcontrol,
                hg.slotValue_eq_of_isControl hsorts hcontrol']
            · exact hg.slotValue_waits hsorts hbest hbundle
                (Or.inr ((isFloating_iff_isLive hg.toOfBlock hsorts).mpr ⟨hdata', hsource⟩))
          · exact hg.slotValue_waits hsorts hbest hbundle
              (Or.inl ((isFloating_iff_isLive hg.toOfBlock hsorts).mpr ⟨hdata, huser⟩))
        rw [if_pos huser, if_pos hsource]
        omega
      · rw [if_neg huser]
        split <;> omega
    · obtain ⟨hsource, huser⟩ := horders horder
      rw [hsame hsource, hsame huser]
      exact hslots.turns horder
  have hle := hslots.least hrespects hlt
  rw [if_pos hid] at hle
  exact hle.trans (min_le_right _ _)

/-- What is placed leaves room for the units that are not live. -/
theorem Issued.leavesRoom (hslots : h.Earliest orders slots)
    (horders : ∀ {source user}, orders source user → h.IsControl source ∧ h.IsControl user) :
    h.LeavesRoom slots := by
  intro user source bundle hbundle huser hdata hsource
  obtain ⟨last, hlast, -, control, hcontrol, heq⟩ := hg.seats.exists_endSlot
  obtain ⟨hlt, hlt'⟩ := lt_size_of_bundle? hg.toWellFormed hbundle
  have hwaits := hg.slotValue_waits hsorts hbest hbundle
    (Or.inr ((isFloating_iff_isLive hg.toOfBlock hsorts).mpr ⟨hdata, hsource⟩))
  have hle := hg.le_slotValue hsorts hbest hslots horders hsource hlt'
  rw [slotValue_eq (slot?_of_not_isLive hg.toOfBlock hsorts hlast hlt huser)] at hwaits
  exact ⟨control, hcontrol, by omega⟩

end

end

/-- Around a control path with its earliest slots, the data path can be scheduled if and only if
there is room for the units that are not live. -/
theorem Issued.exists_schedule_iff {now : Journaled Graph} {last : Nat}
    {latencies : List (UnitId × Nat)} (hg : Issued block entrySlot orders slots now.state)
    (hspacious : Spacious block entrySlot last latencies now.state)
    (hslots : now.state.Earliest orders slots)
    (horders : ∀ {source user}, orders source user →
      now.state.IsControl source ∧ now.state.IsControl user) :
    (∃ done, schedule options now = .ok ⟨⟩ done) ↔ now.state.LeavesRoom slots := by
  have hwellFormed : now.state.WellFormed := hg.toWellFormed
  constructor
  · rintro ⟨done, hrun⟩
    obtain ⟨undangled, placed, solved, system, hstages⟩ := exists_stages hwellFormed hrun
    have hbest := hstages.best hwellFormed hspacious.inRange hspacious.hasControlPath
    exact hg.leavesRoom (schedule_sorts hwellFormed hrun) hbest hslots horders
  · intro hroom
    refine hg.seats.exists_schedule (fun hbundle huser hdata hsource hgap => ?_) rfl hspacious
    rw [hg.gap_eq hbundle hgap]
    exact hroom hbundle huser hdata hsource

end DataPath

/-- The control path of a block that can start over is issued if its lowest slots in order are
words. -/
theorem ControlPath.exists_issued {now : Journaled Graph} {block : BlockId} {entrySlot : Nat}
    {exit : UnitId} {first slots : UnitId → Int}
    (hg : Acyclic block entrySlot exit now.state) (hsize : now.state.units.size < 2 ^ 64)
    (hfirst : now.state.Earliest (fun _ _ => False) first)
    (hslots : now.state.Earliest (now.state.Turns first) slots)
    (hwords : ∀ {id}, now.state.IsControl id → slots id < Word.count) :
    ∃ last, schedule now = .ok ⟨⟩ last ∧ last.state.frame = now.state.frame ∧
      DataPath.Issued block entrySlot (now.state.Turns first) slots last.state := by
  obtain ⟨last, hrun, hissued⟩ := exists_schedule hg hsize hfirst hslots hwords
  have hfree : ∃ id ∈ now.state.controlUnits, now.state.slot? id = none :=
    ⟨exit, hg.control.mpr hg.exitControl, hg.cleared hg.exitControl hg.leaves⟩
  obtain ⟨placed, bounds, hkept, -, -, hplaced⟩ :=
    schedule_placed hrun hg.toOfBlock hg.placed hfree
  have hframe := hplaced.frame.trans hkept
  have hskeleton := skeleton_eq_of_frame_eq hframe
  exact ⟨last, hrun, hframe, hg.toOfBlock.of_frame_eq hframe, hg.toTidy.of_skeleton_eq hskeleton,
    hg.forward.of_outline_eq (outline_eq_of_skeleton_eq hskeleton),
    hslots.toRespects.of_frame_eq hframe,
    fun hid => hissued ((isControl_iff_of_frame_eq hframe).mp hid)⟩

/-- A graph with a control path has a schedule if its data path has one. -/
theorem Graph.schedule_iff_of_control {g : Graph} {journal : Journal} {middle : Journaled Graph}
    {options : SchedulingOptions} (hverify : g.verify = .ok ⟨⟩)
    (hcontrol : (if g.isPipelined = true then schedulePipelined options
      else scheduleStraight options) ⟨g, journal⟩ = .ok ⟨⟩ middle) :
    ∃ noted : Journaled Graph, noted.state = middle.state ∧
      ((∃ done, schedule options ⟨g, journal⟩ = .ok ⟨⟩ done) ↔
        ∃ done, DataPath.schedule options noted = .ok ⟨⟩ done) := by
  obtain ⟨noted, hstate, hdata⟩ : ∃ noted : Journaled Graph, noted.state = middle.state ∧
      Strategy.run .dataPath options middle = DataPath.schedule options noted := by
    rw [Strategy.run, Step.note_bind]
    refine ⟨_, ?_, rfl⟩
    rfl
  refine ⟨noted, hstate, ?_⟩
  rw [← hdata]
  constructor
  · rintro ⟨done, hrun⟩
    obtain ⟨-, middle', hmiddle, hdata⟩ := schedule_eq_ok_iff.mp hrun
    rw [hcontrol] at hmiddle
    cases hmiddle
    exact ⟨done, hdata⟩
  · rintro ⟨done, hdata⟩
    exact ⟨done, schedule_eq_ok_iff.mpr ⟨hverify, middle, hcontrol, hdata⟩⟩

/-! ## Built blocks -/

section

variable {σ : Type} {program : Program} {basic : BasicBlock} {entrySlot : Nat} {g : Graph}
  {before built : Journaled σ} {options : SchedulingOptions}

theorem Lowering.verify_buildBlock
    (hbuild : buildBlock program basic entrySlot before = .ok g built) : g.verify = .ok ⟨⟩ := by
  obtain ⟨l, middle, hlower, hfinish⟩ := Step.bind_eq_ok.mp hbuild
  obtain ⟨sinks, -, hfinish⟩ := Checked.bind_eq_ok.mp (Step.lift_eq_ok.mp hfinish).1
  obtain ⟨attached, -, hfinish⟩ := Checked.bind_eq_ok.mp hfinish
  obtain ⟨_, hverify, hfinish⟩ := Checked.bind_eq_ok.mp hfinish
  obtain rfl := Checked.pure_eq_ok.mp hfinish
  exact hverify

variable (hbuild : Lowering.buildBlock program basic entrySlot before = .ok g built)
  (horder : Lowering.CreatedInOrder program basic g) (hload : program.load basic entrySlot < 2 ^ 20)

include hbuild horder hload

/-- The control path always gets its earliest slots, with room around it. -/
theorem Lowering.exists_issued (options : SchedulingOptions) :
    ∃ first slots, g.rested.Earliest (fun _ _ => False) first ∧
      g.rested.Earliest (g.rested.Turns first) slots ∧ ∀ journal : Journal,
        ∃ middle, scheduleStraight options ⟨g, journal⟩ = .ok ⟨⟩ middle ∧
          middle.state.frame = g.rested.frame ∧
          DataPath.Issued basic.id entrySlot (g.rested.Turns first) slots middle.state ∧
          DataPath.Spacious basic.id entrySlot (4 * horizon) g.waitsFor middle.state := by
  obtain ⟨exit, hg⟩ := enclosed_buildBlock hbuild
  obtain ⟨-, exit', hexit', -, hne⟩ := ofBlock_buildBlock hbuild
  obtain rfl := Option.some.inj (hg.exitRoot.symm.trans hexit')
  obtain ⟨distance, hladen⟩ := laden_buildBlock hbuild
  obtain ⟨exit', started, hreset, hskeleton, hacyclic⟩ := exists_acyclic {} hbuild horder
  obtain ⟨hrestartable, rfl⟩ := resetControl_zero_eq_ok_iff.mp hreset
  obtain ⟨first, hfirst⟩ := hacyclic.forward.exists_earliest hacyclic.toWellFormed
    hacyclic.toTidy hacyclic.root.lt_size
  obtain ⟨slots, hslots⟩ := hacyclic.forward.exists_earliest_turns hacyclic.toWellFormed
    hacyclic.toTidy hacyclic.root.lt_size hfirst.toRespects
  have hsize := size_eq_of_skeleton_eq hskeleton
  have htotal := hladen.total
  dsimp only at hacyclic hfirst hslots hsize
  have hsmall : g.rested.units.size < 2 ^ 64 := by omega
  have hwords : ∀ {id}, id < g.rested.units.size → slots id < Word.count := by
    intro id hid
    have hle := hslots.le_latencySum hacyclic.toTidy hid
    have hsum := hg.latencySum_rested
    have hentrySlot := hacyclic.entrySlot.trans hg.entrySlot.symm
    have hword : Word.count = 2 ^ 32 := rfl
    omega
  refine ⟨first, slots, hfirst, hslots, fun journal => ?_⟩
  have hreset : resetControl 0 ⟨g, journal⟩ = .ok ⟨⟩ ⟨g.rested, journal⟩ :=
    resetControl_zero_eq_ok_iff.mpr ⟨hrestartable, rfl⟩
  obtain ⟨noted, hstate, hstraight⟩ : ∃ noted : Journaled Graph, noted.state = g.rested ∧
      scheduleStraight options ⟨g, journal⟩ = ControlPath.schedule noted := by
    rw [scheduleStraight, Step.bind_of_eq_ok hreset, Strategy.run, Step.note_bind]
    exact ⟨_, rfl, rfl⟩
  rw [← hstate] at hacyclic hfirst hslots hsmall hwords ⊢
  obtain ⟨middle, hrun, hframe, hissued⟩ := ControlPath.exists_issued hacyclic
    hsmall hfirst hslots fun hid => hwords hid.lt_size
  have hnone : g.interval? basic.id = none := by
    rw [interval?, intervals_buildBlock hbuild]
    rfl
  have htimed : Timed basic.id g middle.state :=
    (ensures_scheduleStraight hladen hload hnone hg hne rfl).of_eq_ok (hstraight.trans hrun)
  exact ⟨middle, hstraight.trans hrun, hframe, hissued, htimed.spacious hg hladen hload⟩

omit horder hload in
/-- A built block is scheduled if its graph is. -/
theorem scheduleBlock_iff_schedule (options : SchedulingOptions) :
    (∃ result last, scheduleBlock program basic entrySlot options before = .ok result last) ↔
      ∃ done, Graph.schedule options ⟨g, built.journal⟩ = .ok ⟨⟩ done := by
  constructor
  · rintro ⟨result, last, hrun⟩
    obtain ⟨g', built', hbuild', hrun⟩ := Step.bind_eq_ok.mp hrun
    rw [hbuild] at hbuild'
    cases hbuild'
    obtain ⟨scheduled, apart, hapart, -⟩ := Step.bind_eq_ok.mp hrun
    obtain ⟨⟨value, state⟩, hinner, rfl⟩ := Step.map_eq_ok.mp hapart
    obtain ⟨done, hdone, -⟩ := Step.apart_eq_ok.mp hinner
    exact ⟨done, hdone⟩
  · rintro ⟨done, hdone⟩
    have hapart : scheduleApart options g built = .ok done.state ⟨built.state, done.journal⟩ :=
      Step.map_eq_ok.mpr ⟨(⟨⟩, done.state), Step.apart_eq_ok.mpr ⟨done, hdone, rfl, rfl⟩, rfl⟩
    have halone := alone_of_eq_ok (Step.bind_eq_ok.mpr ⟨g, built, hbuild, hapart⟩)
    obtain ⟨schedule, hschedule⟩ := halone.exists_ofGraph
    refine ⟨(done.state, schedule), ⟨built.state, done.journal⟩, ?_⟩
    rw [scheduleBlock, Step.bind_of_eq_ok hbuild, Step.bind_of_eq_ok hapart,
      Step.lift_bind_of_eq_ok hschedule]
    rfl

/-- A block of straight-line code has a schedule if and only if its earliest slots leave room for
the units that are not live. -/
theorem scheduleBlock_iff_leavesRoom (hstraight : g.isPipelined = false)
    (options : SchedulingOptions) :
    ∃ first slots, g.rested.Earliest (fun _ _ => False) first ∧
      g.rested.Earliest (g.rested.Turns first) slots ∧
      ((∃ result last, scheduleBlock program basic entrySlot options before = .ok result last) ↔
        g.LeavesRoom slots) := by
  obtain ⟨exit, hg⟩ := Lowering.enclosed_buildBlock hbuild
  obtain ⟨first, slots, hfirst, hslots, hstages⟩ :=
    Lowering.exists_issued hbuild horder hload options
  refine ⟨first, slots, hfirst, hslots, ?_⟩
  obtain ⟨middle, hcontrol, hframe, hissued, hspacious⟩ := hstages built.journal
  have hchoice : (if g.isPipelined = true then schedulePipelined options
      else scheduleStraight options) ⟨g, built.journal⟩ = .ok ⟨⟩ middle := by
    rw [if_neg (Bool.eq_false_iff.mp hstraight)]
    exact hcontrol
  obtain ⟨noted, hstate, hdata⟩ :=
    schedule_iff_of_control (Lowering.verify_buildBlock hbuild) hchoice
  rw [← hstate] at hframe hissued hspacious
  have hturns : ∀ {source user}, g.rested.Turns first source user →
      noted.state.IsControl source ∧ noted.state.IsControl user := fun hturns =>
    ⟨(isControl_iff_of_frame_eq hframe).mpr hturns.1.isControl,
      (isControl_iff_of_frame_eq hframe).mpr hturns.1.symm.isControl⟩
  have hplaces : (∃ done, DataPath.schedule options noted = .ok ⟨⟩ done) ↔
      noted.state.LeavesRoom slots :=
    hissued.exists_schedule_iff hspacious (hslots.of_frame_eq hframe) hturns
  have hskeleton : noted.state.skeleton = g.skeleton :=
    (skeleton_eq_of_frame_eq hframe).trans (skeleton_rested g)
  have hroom : noted.state.LeavesRoom slots ↔ g.LeavesRoom slots :=
    ⟨fun h => h.of_skeleton_eq (hg.of_skeleton_eq hskeleton) hskeleton.symm,
      fun h => h.of_skeleton_eq hg hskeleton⟩
  rw [scheduleBlock_iff_schedule hbuild, hdata, hplaces, hroom]

/-- Straight-line code has a schedule if the units that are not live need not wait for the data path
of the others. -/
theorem exists_scheduleBlock (hstraight : g.isPipelined = false)
    (hready : ∀ {user source bundle}, g.bundle? user source = some bundle → ¬g.IsLive user →
      g.IsData source → g.IsLive source → bundle.edge.latency = 0)
    (options : SchedulingOptions) :
    ∃ result last, scheduleBlock program basic entrySlot options before = .ok result last := by
  obtain ⟨exit, hg⟩ := Lowering.enclosed_buildBlock hbuild
  obtain ⟨first, slots, -, hslots, hschedules⟩ :=
    scheduleBlock_iff_leavesRoom hbuild horder hload hstraight options
  have houtline := outline_eq_of_skeleton_eq (skeleton_rested g)
  refine hschedules.mpr fun user source bundle hbundle huser hdata hsource => ?_
  obtain ⟨control, hcontrol, hle⟩ := hslots.toRespects.exists_control_of_isLive
    (hg.toListed.of_outline_eq houtline) ((isLive_of_outline_eq houtline).mpr hsource)
  refine ⟨control, isControl_of_outline_eq houtline hcontrol, ?_⟩
  rw [hready hbundle huser hdata hsource]
  omega

end

/-- Two control units with a result between them, and another result that waits five slots for the
first one and that nothing needs. -/
def lateResult : Program where
  ops := ⟨#[.control "a" 0 .trivial, .data "d" 0 .trivial, .control "c" 0 .trivial,
    .data "z" 0 .trivial]⟩
  oracle :=
    { dependences := fun op =>
        if op = 0 then some [.liveIn]
        else if op = 1 then some [.value 0 1]
        else if op = 2 then some [.value 1 0]
        else some [.value 1 5]
      stepsToFinish := fun _ => 0 }

/-- Slots for all units are easy to find, but none of them leave room in the last slot. -/
theorem infeasible_lateResult :
    ∃ g built, (Lowering.buildBlock lateResult ⟨0, [0, 1, 2, 3]⟩ 1 : Step PUnit Graph) ⟨⟨⟩, {}⟩ =
        .ok g built ∧
      Lowering.CreatedInOrder lateResult ⟨0, [0, 1, 2, 3]⟩ g ∧
      lateResult.load ⟨0, [0, 1, 2, 3]⟩ 1 < 2 ^ 20 ∧ g.isPipelined = false ∧
      ∃ reason last, scheduleBlock lateResult ⟨0, [0, 1, 2, 3]⟩ 1 {}
        (⟨⟨⟩, {}⟩ : Journaled PUnit) = .error (.error (.broken .infeasibleSystem reason)) last := by
  have hsucceeds : (Lowering.buildBlock lateResult ⟨0, [0, 1, 2, 3]⟩ 1 : Step PUnit Graph).succeeds
      ⟨⟨⟩, {}⟩ (fun g => decide (Lowering.CreatedInOrder lateResult ⟨0, [0, 1, 2, 3]⟩ g ∧
        g.isPipelined = false)) = true := by
    decide +kernel
  have hfails : (scheduleBlock lateResult ⟨0, [0, 1, 2, 3]⟩ 1 {} :
      Step PUnit (Graph × Schedule)).failure? ⟨⟨⟩, {}⟩ =
        some (.error (.broken .infeasibleSystem "positive cycle among 5 constraints")) := by
    decide +kernel
  obtain ⟨g, built, hbuild, htest⟩ := Step.exists_of_succeeds hsucceeds
  obtain ⟨horder, hstraight⟩ := of_decide_eq_true htest
  obtain ⟨last, hrun⟩ := Step.exists_of_failure? hfails
  exact ⟨g, built, hbuild, horder, by decide, hstraight, _, last, hrun⟩

end SlotScheduling
