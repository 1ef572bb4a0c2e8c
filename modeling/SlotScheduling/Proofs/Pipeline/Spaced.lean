import Mathlib.Data.Int.LeastGreatest
import SlotScheduling.Proofs.Arithmetic
import SlotScheduling.Proofs.Pipelined
import SlotScheduling.Proofs.Placement.Seated

/-!
# Loops that leave room for their data path

The control path of a loop respects what its units ask of each other over the data path.  Where no
cycle lies in the data path alone, and every unit of it waits for something and is waited for within
one iteration, the latest time at which a path from a control unit arrives is a slot for it.  Moves
are an exception: a path from a move was taken to start one interval before the slot that the move
has in the end.
-/

namespace SlotScheduling

open SlotScheduling.Graph

/-- The bounds of straight-line code leave every block the interval on record. -/
theorem ControlBounds.interval?_eq {bounds : ControlBounds} (h : bounds.pipelining = false)
    (g : Graph) (block : BlockId) : bounds.interval? g block = g.interval? block :=
  if_neg (by simp [h])

namespace Graph

variable {g h : Graph} {bounds : ControlBounds} {block : BlockId} {entrySlot : Nat}
  {id control source user : UnitId} {bundle : EdgeBundle} {span offset : Int}

/-- Within one iteration, every unit of the data path waits for some unit, and a control unit waits
for it. -/
structure Threaded (g : Graph) : Prop where
  untangled : g.Untangled
  waits : ∀ {id}, g.IsData id → ∃ source, g.WaitsWithin source id
  awaited : ∀ {id}, g.IsData id →
    ∃ control, g.IsControl control ∧ Relation.ReflTransGen g.WaitsWithin id control

/-- In the slots of the control units of a block, there is time for every path between them over the
data path. -/
structure Spaced (block : BlockId) (entrySlot : Nat) (g : Graph) : Prop
    extends OfBlock block entrySlot g, Threaded g where
  through : ∀ {control source user span offset}, LookThrough.Spans g {} control source span →
    g.IsControl user → ControlBounds.Asks {} g source user offset →
      g.slotAt control + span + offset ≤ g.slotAt user

theorem Threaded.of_outline_eq (hg : g.Threaded) (hsame : h.outline = g.outline) :
    h.Threaded where
  untangled := hg.untangled.of_outline_eq hsame
  waits := fun hdata => by
    obtain ⟨source, hwaits⟩ := hg.waits (isData_of_outline_eq hsame hdata)
    exact ⟨source, waitsWithin_of_outline_eq hsame.symm hwaits⟩
  awaited := fun hdata => by
    obtain ⟨control, hcontrol, hreaches⟩ := hg.awaited (isData_of_outline_eq hsame hdata)
    exact ⟨control, isControl_of_outline_eq hsame.symm hcontrol,
      Relation.ReflTransGen.mono (fun _ _ => waitsWithin_of_outline_eq hsame.symm) _ _ hreaches⟩

/-- Every unit of the block is live. -/
theorem Threaded.isLive (hg : g.Threaded) (hblock : g.OfBlock block entrySlot)
    (hid : id < g.units.size) : g.IsLive id := by
  obtain ⟨control, hcontrol, hreaches⟩ :
      ∃ control, g.IsControl control ∧ Relation.ReflTransGen g.WaitsWithin id control := by
    rcases isControl_or_isData hid with hcontrol | hdata
    · exact ⟨id, hcontrol, .refl⟩
    · exact hg.awaited hdata
  induction hreaches using Relation.ReflTransGen.head_induction_on with
  | refl => exact hcontrol.isLive hblock.toListed
  | head hwaits _ ih =>
      obtain ⟨bundle, hbundle, -⟩ := hwaits
      exact (ih (lt_size_of_bundle? hblock.toWellFormed hbundle).1).of_bundle? hblock hbundle

theorem WaitsWithin.asks (hwaits : g.WaitsWithin source user) (hg : g.OfBlock block entrySlot)
    (bounds : ControlBounds) : ∃ latency : Nat, bounds.Asks g source user latency := by
  obtain ⟨bundle, hbundle, hlocal⟩ := hwaits
  exact ⟨_, (asks_iff_bundle? hg).mpr
    ⟨bundle, hbundle, DepEdge.offset?_of_distance_eq_zero hlocal _⟩⟩

/-- Within one iteration, a unit of the data path is reached from some control unit. -/
theorem Threaded.exists_spans (hg : g.Threaded) (hblock : g.OfBlock block entrySlot)
    (hdata : g.IsData id) :
    ∃ control span, LookThrough.Spans g bounds control id span ∧ 0 ≤ span := by
  obtain ⟨depth, hdepth⟩ : ∃ depth, g.depth id < depth := ⟨_, Nat.lt_succ_self _⟩
  induction depth generalizing id with
  | zero => exact absurd hdepth (Nat.not_lt_zero _)
  | succ depth ih =>
      obtain ⟨source, hwaits⟩ := hg.waits hdata
      obtain ⟨latency, hasks⟩ := hwaits.asks hblock bounds
      obtain ⟨bundle, hbundle, -⟩ := hwaits
      rcases isControl_or_isData (lt_size_of_bundle? hblock.toWellFormed hbundle).2 with
        hcontrol | hsource
      · exact ⟨source, latency, .start hcontrol hdata (hg.untangled id) hasks,
          Int.natCast_nonneg _⟩
      · have hlt := depth_lt_of_feeds hg.untangled ⟨hsource, hdata, hasks.dependsOn⟩
        obtain ⟨control, span, hspans, hpos⟩ := ih hsource (by omega)
        exact ⟨control, span + latency, hspans.step hdata (hg.untangled id) hasks, by omega⟩

/-- Some control unit issues when all paths to a unit of the data path have arrived there. -/
theorem Spaced.exists_control (hg : Spaced block entrySlot g) (hdata : g.IsData id) :
    ∃ user, g.IsControl user ∧ ∀ {control span}, LookThrough.Spans g {} control id span →
      g.slotAt control + span ≤ g.slotAt user := by
  obtain ⟨last, hlast, hreaches⟩ := hg.awaited hdata
  induction hreaches using Relation.ReflTransGen.head_induction_on with
  | refl => exact absurd hdata hlast.not_isData
  | @head id next hwaits _ ih =>
      obtain ⟨latency, hasks⟩ := hwaits.asks hg.toOfBlock {}
      obtain ⟨bundle, hbundle, -⟩ := hwaits
      rcases isControl_or_isData (lt_size_of_bundle? hg.toWellFormed hbundle).1 with
        hcontrol | hnext
      · refine ⟨next, hcontrol, fun hspans => ?_⟩
        have := hg.through hspans hcontrol hasks
        omega
      · obtain ⟨user, huser, hle⟩ := ih hnext
        refine ⟨user, huser, fun hspans => ?_⟩
        have := hle (hspans.step hnext (hg.untangled next) hasks)
        omega

/-! ## Slots for the data path -/

/-- The latest time at which a path from a control unit arrives at a unit of the data path. -/
structure Arrives (g : Graph) (id : UnitId) (time : Int) : Prop where
  reached : ∃ control span, LookThrough.Spans g {} control id span ∧
    time = g.slotAt control + span
  latest : ∀ {control span}, LookThrough.Spans g {} control id span →
    g.slotAt control + span ≤ time

theorem Spaced.exists_arrives (hg : Spaced block entrySlot g) (hdata : g.IsData id) :
    ∃ time, g.Arrives id time := by
  obtain ⟨user, -, hle⟩ := hg.exists_control hdata
  obtain ⟨control, span, hspans, -⟩ := hg.exists_spans hg.toOfBlock hdata
  obtain ⟨time, hreached, hlatest⟩ := Int.exists_greatest_of_bdd
    (P := fun time => ∃ control span, LookThrough.Spans g {} control id span ∧
      time = g.slotAt control + span)
    ⟨g.slotAt user, by rintro _ ⟨control, span, hspans, rfl⟩; exact hle hspans⟩
    ⟨_, control, span, hspans, rfl⟩
  exact ⟨time, hreached, fun hspans => hlatest _ ⟨_, _, hspans, rfl⟩⟩

/-- The slots of the control units, and the times at which the paths between them arrive at the
units of the data path. -/
theorem Spaced.exists_slots (hg : Spaced block entrySlot g) :
    ∃ slots : UnitId → Int, (∀ {id}, g.IsControl id → slots id = g.slotAt id) ∧
      ∀ {id}, g.IsData id → g.Arrives id (slots id) := by
  classical
  have htimes : ∀ id, ∃ time, g.IsData id → g.Arrives id time := fun id => by
    by_cases hdata : g.IsData id
    · exact (hg.exists_arrives hdata).imp fun _ h _ => h
    · exact ⟨0, fun h => absurd h hdata⟩
  choose times htimes using htimes
  refine ⟨fun id => if g.IsControl id then g.slotAt id else times id, fun hid => if_pos hid,
    fun hid => ?_⟩
  simp only [if_neg fun hcontrol : g.IsControl _ => hcontrol.not_isData hid]
  exact htimes _ hid

end Graph

namespace DataPath

variable {g : Graph} {block : BlockId} {entrySlot last : Nat} {latencies : List (UnitId × Nat)}
  {options : SchedulingOptions}

/-- In the slots of a control path that leaves time for the data path there are slots for it. -/
theorem exists_seats (hg : Spaced block entrySlot g)
    (hspacious : Spacious block entrySlot last latencies g)
    (hpath : HasControlPath entrySlot g) (hfirst : g.slot? g.entryRoot = some entrySlot) :
    ∃ slots, Seats block entrySlot slots g := by
  obtain ⟨slots, hcontrol, hdata⟩ := hg.exists_slots
  have hlow : ∀ {id}, g.IsControl id → (entrySlot : Int) ≤ g.slotAt id := fun hid => by
    obtain ⟨slot, hslot, hle, -⟩ := hpath _ hid
    rw [slotAt_eq hslot]
    omega
  refine ⟨slots, { toOfBlock := hg.toOfBlock, toTidy := hspacious.toTidy, first := ?entry,
                   issued := ?issued, after := ?after, before := ?before, met := ?met }⟩
  case entry => rw [hcontrol hg.root, slotAt_eq hfirst, hg.entrySlot]
  case issued =>
    intro id hid
    obtain ⟨slot, hslot, -⟩ := hpath id hid
    exact ⟨slot, hslot, ((hcontrol hid).trans (slotAt_eq hslot)).symm⟩
  case after =>
    intro id hid _
    obtain ⟨control, span, hspans, hpos⟩ := hg.exists_spans hg.toOfBlock hid
    have hle := (hdata hid).latest hspans
    have := hlow hspans.isControl
    rw [hg.entrySlot]
    omega
  case before =>
    intro id hid _
    obtain ⟨user, huser, hle⟩ := hg.exists_control hid
    obtain ⟨control, span, hspans, heq⟩ := (hdata hid).reached
    refine ⟨user, huser, ?_⟩
    rw [heq, hcontrol huser]
    exact hle hspans
  case met =>
    intro user source bundle gap hbundle _ hsides hgap
    obtain ⟨offset?, hoffset, -⟩ := hspacious.offsets hbundle
    have hasks : ControlBounds.Asks {} g source user gap :=
      (asks_iff_bundle? hg.toOfBlock).mpr ⟨bundle, hbundle, by
        rw [ControlBounds.interval?_eq rfl, hoffset, DepEdge.offset?_eq_minGap? hoffset, hgap]⟩
    obtain ⟨hlt, hlt'⟩ := lt_size_of_bundle? hg.toWellFormed hbundle
    rcases isControl_or_isData hlt with huser | huser
    · have hsource := hsides.resolve_left huser.not_isData
      obtain ⟨control, span, hspans, heq⟩ := (hdata hsource).reached
      rw [heq, hcontrol huser]
      exact hg.through hspans huser hasks
    · rcases isControl_or_isData hlt' with hsource | hsource
      · rw [hcontrol hsource]
        exact (hdata huser).latest (.start hsource huser (hg.untangled user) hasks)
      · obtain ⟨control, span, hspans, heq⟩ := (hdata hsource).reached
        have := (hdata huser).latest (hspans.step huser (hg.untangled user) hasks)
        omega

end DataPath

/-! ## After a search -/

/-- The first step of a path over the data path is one from its control unit. -/
theorem LookThrough.Spans.exists_user {g : Graph} {bounds : ControlBounds} {control id : UnitId}
    {span : Int} (h : LookThrough.Spans g bounds control id span) :
    ∃ user, g.IsData user ∧ g.DependsOn user control := by
  induction h with
  | start _ hdata _ hasks => exact ⟨_, hdata, hasks.dependsOn⟩
  | step _ _ _ _ ih => exact ih

theorem Graph.delayOf_of_not_isMove {g : Graph} {interval : Nat} {id : UnitId}
    (h : ¬g.IsMove id) : g.delayOf interval id = 0 := by
  unfold delayOf
  split
  next unit hunit => exact if_neg fun hphi => h ⟨unit, hunit, hphi⟩
  next => rfl

namespace PipelineSearch

variable {block : BlockId} {entrySlot interval : Nat} {now last : Journaled Graph}

/-- A search leaves time for all paths over the data path that do not start at a move. -/
theorem spaced_of_run (hg : now.state.OfBlock block entrySlot) (hthreaded : now.state.Threaded)
    (hmoves : ∀ {move user}, now.state.IsMove move → now.state.IsData user →
      ¬now.state.DependsOn user move)
    (h : run now = .ok interval last) : Spaced block entrySlot last.state := by
  obtain ⟨g, placed, hskeleton, hattempt, -, -, hdelayed⟩ := run_eq_ok hg h
  obtain ⟨bounds, order, ordered, -, -, -, -, hinterval, hplaced⟩ := hattempt.placed
  have hkept : last.state.skeleton = now.state.skeleton := keeps_run.of_eq_ok h
  have hthreaded := hthreaded.of_outline_eq (outline_eq_of_skeleton_eq hkept)
  have hlast := hg.of_skeleton_eq hkept
  have houtline := outline_eq_of_skeleton_eq (hskeleton.trans hkept.symm)
  have hcontrol : ∀ {id}, last.state.IsControl id → g.IsControl id :=
    isControl_of_outline_eq houtline.symm
  have hslot : ∀ {id}, last.state.IsControl id →
      last.state.slotAt id = placed.slotAt id + last.state.delayOf interval id := by
    intro id hid
    obtain ⟨slot, hslot⟩ := hplaced.scheduled (hattempt.ofBlock.control.mpr (hcontrol hid))
    have hrecorded := hattempt.ofBlock_placed.setInterval interval
    have hmoved := hdelayed.slot_eq hrecorded.toListed
      ((isControl_iff_of_frame_eq hdelayed.frame).mp hid) hslot
    rw [slotAt_eq hmoved, slotAt_eq hslot, delayOf_of_frame_eq hdelayed.frame, Nat.cast_add]
  have hbundle : last.state.bundle? = g.bundle? :=
    (bundle?_of_frame_eq hdelayed.frame).trans (bundle?_of_frame_eq hplaced.frame :)
  have hrecorded : last.state.interval? block = some interval :=
    (congrFun (interval?_of_frame_eq hdelayed.frame) block).trans (interval?_setInterval _ _ _)
  have hasked : ∀ {source user offset}, ControlBounds.Asks {} last.state source user offset →
      bounds.Asks g source user offset := by
    intro source user offset hasks
    rw [asks_iff_bundle? hlast, ControlBounds.interval?_eq rfl, hrecorded,
      hbundle, ← hinterval] at hasks
    exact (asks_iff_bundle? hattempt.ofBlock).mpr hasks
  refine { toOfBlock := hlast, toThreaded := hthreaded, through := ?_ }
  intro control source user span offset hspans huser hasks
  have hspans' := spans_of_asks hcontrol (isData_of_outline_eq houtline.symm)
    (hthreaded.untangled.of_outline_eq houtline) (fun _ => hasked) hspans
  obtain ⟨unit, bundle, hunit, hdep, hoffset⟩ := hasked hasks
  obtain ⟨x, hx⟩ := hplaced.scheduled (hattempt.ofBlock.control.mpr (hcontrol huser))
  obtain ⟨y, hy⟩ := hplaced.scheduled (hattempt.ofBlock.control.mpr hspans'.isControl)
  have hpath := hplaced.paths (hattempt.ofBlock.control.mpr (hcontrol huser)) hunit
    (Table.mem_entries_of_get?_eq_some hdep) hoffset hspans' hy hx
  -- No path starts at a move, so that its first unit has not been delayed.
  have hstill : last.state.delayOf interval control = 0 := by
    obtain ⟨first, hfirst, hdepends⟩ := hspans.exists_user
    refine delayOf_of_not_isMove fun hmove => ?_
    have houtline := outline_eq_of_skeleton_eq hkept
    exact hmoves ((isMove_of_skeleton_eq hkept).mp hmove) (isData_of_outline_eq houtline hfirst)
      (dependsOn_of_outline_eq houtline hdepends)
  rw [hslot hspans.isControl, hslot huser, hstill, slotAt_eq hx, slotAt_eq hy]
  omega

end PipelineSearch

end SlotScheduling
