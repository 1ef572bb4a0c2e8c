import Mathlib.Algebra.Order.BigOperators.Group.List
import SlotScheduling.Proofs.Pipeline.Restarts
import SlotScheduling.Proofs.Placement.Admitted

/-!
# Slots that fit a loop

What an attempt of the search asks for, said about one graph for all attempts: the dependencies of
the loop at an interval, and how long its exit waits for moves.  Where the numbers of the loop are
small, the slots that an attempt admits are the ones that fit.
-/

namespace SlotScheduling

/-- The bounds of an attempt, without those on the schedule as a whole. -/
def loopBounds (interval : Nat) : ControlBounds where
  pipelining := true
  loopInterval := if 0 < interval then some interval else none

namespace DepEdge

variable {edge : DepEdge} {interval latency distance : Nat} {offset : Int}

theorem offset_eq_offsetAt
    (h : edge.offset? (loopBounds interval).loopInterval = .ok (some offset)) :
    offset = edge.offsetAt interval ∧ (edge.distance = 0 ∨ 0 < interval) := by
  rcases Nat.eq_zero_or_pos edge.distance with hlocal | hcarried
  · rw [offset?_of_distance_eq_zero hlocal] at h
    cases h
    exact ⟨by simp [offsetAt, hlocal], Or.inl hlocal⟩
  · have hspans : edge.isLoopCarried = true := decide_eq_true hcarried
    unfold DepEdge.offset? at h
    rw [if_pos hspans] at h
    rcases Nat.eq_zero_or_pos interval with rfl | hpos
    · cases h
    · rw [loopBounds, if_pos hpos] at h
      cases hoffset : edge.minOffset interval with
      | error failure => simp [hoffset] at h
      | ok least =>
          simp only [hoffset] at h
          cases h
          exact ⟨minOffset_eq_ok hoffset, Or.inr hpos⟩

/-- Small numbers make small offsets. -/
theorem exists_offset? (hlatency : edge.latency ≤ latency) (hdistance : edge.distance ≤ distance)
    (hinterval : interval ≤ latency) (hroom : (distance + 1) * latency ≤ 2 ^ 52) :
    ∃ offset?, edge.offset? (loopBounds interval).loopInterval = .ok offset? ∧
      ∀ offset ∈ offset?, offset.natAbs ≤ (distance + 1) * latency := by
  have hspan : edge.distance * interval ≤ distance * latency :=
    Nat.mul_le_mul hdistance hinterval
  rw [Nat.succ_mul] at hroom ⊢
  rcases Nat.eq_zero_or_pos edge.distance with hlocal | hcarried
  · refine ⟨_, offset?_of_distance_eq_zero hlocal _, fun offset hoffset => ?_⟩
    cases hoffset
    omega
  · have hspans : edge.isLoopCarried = true := decide_eq_true hcarried
    unfold DepEdge.offset?
    rw [if_pos hspans]
    rcases Nat.eq_zero_or_pos interval with rfl | hpos
    · exact ⟨none, rfl, fun offset hoffset => by cases hoffset⟩
    · have hbound : Offset.bound = 2 ^ 63 := rfl
      have hleast : edge.minOffset interval = .ok (edge.offsetAt interval) :=
        minOffset_of_not_outreaches (by omega) (not_outreaches_of_lt (by omega))
      refine ⟨some (edge.offsetAt interval), by simp only [loopBounds, if_pos hpos, hleast]; rfl,
        fun offset hoffset => ?_⟩
      cases hoffset
      rw [offsetAt, ← Nat.cast_mul]
      omega

end DepEdge

namespace Graph

variable {g h : Graph} {bounds bounds' : ControlBounds} {block : BlockId}
  {entrySlot interval distance : Nat} {id exit branch source user control : UnitId}
  {bundle : EdgeBundle} {slots : UnitId → Int} {offset span : Int}

/-- The latencies of all edges together. -/
def latencySum (g : Graph) : Nat :=
  (g.units.toList.flatMap fun unit => unit.deps.values.map (·.edge.latency)).sum

/-- What the ceiling of a search leaves room for beyond the first critical path. -/
def allowance (g : Graph) : Nat := g.latencySum + g.controlUnits.length

theorem latency_le_latencySum (h : g.bundle? user source = some bundle) :
    bundle.edge.latency ≤ g.latencySum := by
  obtain ⟨unit, hunit, hdep⟩ := exists_of_bundle? h
  refine List.le_sum_of_mem (List.mem_flatMap.mpr ⟨unit, ?_, ?_⟩)
  · rw [Array.mem_toList_iff]
    exact Array.mem_of_getElem? hunit
  · exact List.mem_map_of_mem (List.mem_map_of_mem (Table.mem_entries_of_get?_eq_some hdep))

/-- The numbers of a loop are so small that a search computes with them exactly. -/
structure IsSmall (g : Graph) (distance : Nat) : Prop where
  distances : ∀ {user source bundle}, g.bundle? user source = some bundle →
    bundle.edge.distance ≤ distance
  room : (distance + 1) * (g.allowance + 1) * (g.units.size + 1) ≤ 2 ^ 52
  words : g.entrySlot + 2 * (g.allowance + 1) < Word.count

/-- The loop that a search works on: whatever waits for a unit of its own iteration waits for an
earlier one, nothing but the exit waits for the loop operation, and the exit does not wait for
moves to finish. -/
structure Looping (block : BlockId) (entrySlot : Nat) (exit branch : UnitId) (g : Graph) : Prop
    extends Enclosed block entrySlot exit g where
  loops : g.loopOp = some branch
  loopNoMove : ¬g.IsMove branch
  loopUsers : ∀ {user}, g.DependsOn user branch → user = exit
  forward : ∀ {user source bundle}, g.bundle? user source = some bundle →
    bundle.edge.distance = 0 → source < user
  untangled : g.Untangled
  movesReady : ∀ {source bundle}, g.IsMove source → g.bundle? exit source = some bundle →
    bundle.edge.latency = 0

/-- The slots keep the dependencies of a loop at an interval. -/
structure Fits (g : Graph) (exit : UnitId) (interval : Nat) (slots : UnitId → Int) : Prop where
  entry : slots g.entryRoot = g.entrySlot
  loop : ∀ {loop}, 0 < interval → g.loopOp = some loop → slots loop = g.entrySlot + interval
  free : ∀ {id}, g.IsControl id → (g.entrySlot : Int) ≤ slots id
  direct : ∀ {source user offset}, g.IsControl source → g.IsControl user →
    (loopBounds interval).Asks g source user offset → slots source + offset ≤ slots user
  through : ∀ {control source user span offset},
    LookThrough.Spans g (loopBounds interval) control source span → g.IsControl user →
    (loopBounds interval).Asks g source user offset →
    slots control + span + offset ≤ slots user
  moves : ∀ {source}, g.IsMove source → g.DependsOn exit source →
    slots source + interval ≤ slots exit


/-! ## What edges ask for -/

/-- Within a block, what an edge asks for depends on nothing but the edge and the interval. -/
theorem asks_iff_bundle? (hg : g.OfBlock block entrySlot) :
    bounds.Asks g source user offset ↔ ∃ bundle, g.bundle? user source = some bundle ∧
      bundle.edge.offset? (bounds.interval? g block) = .ok (some offset) := by
  constructor
  · rintro ⟨unit, bundle, hunit, hdep, hasks⟩
    rw [(hg.units hunit).block] at hasks
    exact ⟨bundle, (bundle?_eq hunit source).trans hdep, hasks⟩
  · rintro ⟨bundle, hbundle, hasks⟩
    obtain ⟨unit, hunit, hdep⟩ := exists_of_bundle? hbundle
    rw [← (hg.units hunit).block] at hasks
    exact ⟨unit, bundle, hunit, hdep, hasks⟩

/-- In a loop, the interval is that of the attempt. -/
theorem asks_iff (hg : g.OfBlock block entrySlot) (hpipelining : bounds.pipelining = true) :
    bounds.Asks g source user offset ↔ ∃ bundle, g.bundle? user source = some bundle ∧
      bundle.edge.offset? bounds.loopInterval = .ok (some offset) := by
  rw [asks_iff_bundle? hg, ControlBounds.interval?, if_pos ⟨hpipelining, hg.entryBlock.symm⟩]

/-- An edge within one iteration asks for its latency at any interval. -/
theorem asks_of_local (hg : g.OfBlock block entrySlot)
    (hbundle : g.bundle? user source = some bundle) (hlocal : bundle.edge.distance = 0)
    (interval : Nat) : (loopBounds interval).Asks g source user bundle.edge.latency :=
  (asks_iff hg rfl).mpr ⟨bundle, hbundle, DepEdge.offset?_of_distance_eq_zero hlocal _⟩

theorem exists_bundle_of_asks (hg : g.OfBlock block entrySlot)
    (hasks : (loopBounds interval).Asks g source user offset) :
    ∃ bundle, g.bundle? user source = some bundle ∧ offset = bundle.edge.offsetAt interval ∧
      (bundle.edge.distance = 0 ∨ 0 < interval) := by
  obtain ⟨bundle, hbundle, hoffset⟩ := (asks_iff hg rfl).mp hasks
  exact ⟨bundle, hbundle, DepEdge.offset_eq_offsetAt hoffset⟩

/-- A path over the data path is one in any graph with the same edges there. -/
theorem spans_of_asks (hcontrol : ∀ {id}, g.IsControl id → h.IsControl id)
    (hdata : ∀ {id}, g.IsData id → h.IsData id) (hopen : h.Untangled)
    (hasks : ∀ {source user offset}, g.IsData user → bounds.Asks g source user offset →
      bounds'.Asks h source user offset)
    (hspans : LookThrough.Spans g bounds control id span) :
    LookThrough.Spans h bounds' control id span := by
  induction hspans with
  | start hisControl hisData _ hasked =>
      exact .start (hcontrol hisControl) (hdata hisData) (hopen _) (hasks hisData hasked)
  | step _ hisData _ hasked ih => exact ih.step (hdata hisData) (hopen _) (hasks hisData hasked)

/-! ## What starting over keeps -/

theorem Untangled.of_outline_eq (hg : g.Untangled) (hsame : h.outline = g.outline) :
    h.Untangled := by
  have hfeeds : ∀ source user, h.Feeds source user → g.Feeds source user :=
    fun source user hfeeds => ⟨isData_of_outline_eq hsame hfeeds.1,
      isData_of_outline_eq hsame hfeeds.2.1, dependsOn_of_outline_eq hsame hfeeds.2.2⟩
  exact fun id hcircular => hg id (Relation.TransGen.mono hfeeds _ _ hcircular)

theorem Tidy.of_skeleton_eq (hg : g.Tidy) (hsame : h.skeleton = g.skeleton) : h.Tidy where
  tidy := by
    intro id unit hunit
    obtain ⟨unit', hunit', houtline⟩ :=
      exists_of_outline_eq (outline_eq_of_skeleton_eq hsame) hunit
    refine ⟨ScheduleUnit.keys_eq_of_outline_eq houtline ▸ (hg.tidy hunit').nodup, ?_⟩
    intro dep hdep
    have hmem : (dep.1, dep.2.withLatency 0) ∈
        unit'.deps.entries.map fun dep => (dep.1, dep.2.withLatency 0) :=
      ScheduleUnit.deps_of_outline_eq houtline ▸ List.mem_map_of_mem hdep
    obtain ⟨dep', hdep', heq⟩ := List.mem_map.mp hmem
    have hfixed := congrArg (fun dep : UnitId × EdgeBundle => dep.2.edge.isFixedTiming) heq
    exact hfixed.symm.trans ((hg.tidy hunit').loose dep' hdep')
  entryNoLoop := by
    have hloop : h.loopOp = g.loopOp := eq_of_skeleton_eq (·.loopOp) hsame fun _ => rfl
    rw [hloop]
    exact hg.entryNoLoop

section

variable (hg : Enclosed block entrySlot exit g)

include hg

theorem Similar.ofBlock (hsimilar : Similar g h) : h.OfBlock block entrySlot :=
  hg.toOfBlock.of_skeleton_eq hsimilar.skeleton

theorem Similar.bundle?_of_ne (hsimilar : Similar g h) (hne : user ≠ exit) :
    h.bundle? user = g.bundle? user :=
  bundle?_of_skeleton_eq hsimilar.skeleton fun hroot =>
    hne (Option.some.inj (hroot.symm.trans hg.exitRoot))

/-- Only how long the exit waits for moves depends on the interval. -/
theorem Widened.exists_bundle (hwidened : Widened interval g h)
    (hbundle : h.bundle? user source = some bundle) :
    ∃ bundle', g.bundle? user source = some bundle' ∧
      bundle.edge.distance = bundle'.edge.distance ∧
      (bundle = bundle' ∨ bundle.edge.latency = interval) := by
  obtain ⟨bundle', hbundle', heq⟩ :=
    exists_bundle_of_outline_eq (outline_eq_of_skeleton_eq hwidened.skeleton) hbundle
  have hdistance := congrArg (fun bundle => bundle.edge.distance) heq
  refine ⟨bundle', hbundle', hdistance, ?_⟩
  by_cases hexit : user = exit
  · subst hexit
    by_cases hmove : g.IsMove source
    · exact Or.inr (hwidened.moves hg.exitRoot hmove hbundle)
    · rw [hwidened.exitBundles hg.exitRoot hmove, hbundle'] at hbundle
      exact Or.inl (Option.some.inj hbundle).symm
  · rw [hwidened.bundle?_of_ne hg hexit, hbundle'] at hbundle
    exact Or.inl (Option.some.inj hbundle).symm

end

section

variable (hg : Looping block entrySlot exit branch g) (hrestart : Restarted interval g h)

include hg hrestart

theorem Restarted.asks_iff_of_ne (hpipelining : bounds.pipelining = true)
    (hloop : bounds.loopInterval = (loopBounds interval).loopInterval) (hne : user ≠ exit) :
    bounds.Asks h source user offset ↔ (loopBounds interval).Asks g source user offset := by
  rw [asks_iff (hrestart.ofBlock hg.toEnclosed) hpipelining, asks_iff hg.toOfBlock rfl,
    hrestart.bundle?_of_ne hg.toEnclosed hne, hloop]

theorem Restarted.spans_iff (hpipelining : bounds.pipelining = true)
    (hloop : bounds.loopInterval = (loopBounds interval).loopInterval) :
    LookThrough.Spans h bounds control source span ↔
      LookThrough.Spans g (loopBounds interval) control source span := by
  have houtline := outline_eq_of_skeleton_eq hrestart.skeleton
  have hasks : ∀ {source user offset}, g.IsData user →
      (bounds.Asks h source user offset ↔ (loopBounds interval).Asks g source user offset) :=
    fun hdata => hrestart.asks_iff_of_ne hg hpipelining hloop fun heq =>
      hg.exitControl.not_isData (heq ▸ hdata)
  constructor
  · exact spans_of_asks (isControl_of_outline_eq houtline) (isData_of_outline_eq houtline)
      hg.untangled fun hdata => (hasks (isData_of_outline_eq houtline hdata)).mp
  · exact spans_of_asks (isControl_of_outline_eq houtline.symm)
      (isData_of_outline_eq houtline.symm) (hg.untangled.of_outline_eq houtline)
      fun hdata => (hasks hdata).mpr

/-- The exit waits for control units of its own iteration, and for moves a whole interval. -/
theorem Restarted.asks_exit_iff (hpipelining : bounds.pipelining = true) :
    bounds.Asks h source exit offset ↔ ∃ bundle, g.bundle? exit source = some bundle ∧
      ((g.IsMove source ∧ offset = interval) ∨
        (¬g.IsMove source ∧ offset = bundle.edge.latency)) := by
  rw [asks_iff (hrestart.ofBlock hg.toEnclosed) hpipelining]
  constructor
  · rintro ⟨bundle, hbundle, hoffset⟩
    obtain ⟨bundle', hbundle', hdistance, -⟩ := hrestart.exists_bundle hg.toEnclosed hbundle
    rw [DepEdge.offset?_of_distance_eq_zero (hdistance.trans (hg.waits hbundle').2)] at hoffset
    cases hoffset
    refine ⟨bundle', hbundle', ?_⟩
    by_cases hmove : g.IsMove source
    · exact Or.inl ⟨hmove, congrArg Nat.cast (hrestart.moves hg.exitRoot hmove hbundle)⟩
    · rw [hrestart.exitBundles hg.exitRoot hmove, hbundle'] at hbundle
      exact Or.inr ⟨hmove, by rw [Option.some.inj hbundle]⟩
  · rintro ⟨bundle, hbundle, hoffset⟩
    obtain ⟨bundle', hbundle', heq⟩ := exists_bundle_of_outline_eq
      (outline_eq_of_skeleton_eq hrestart.skeleton).symm hbundle
    have hdistance : bundle'.edge.distance = 0 := by
      have hdistance := congrArg (fun bundle => bundle.edge.distance) heq
      exact hdistance.symm.trans (hg.waits hbundle).2
    refine ⟨bundle', hbundle', ?_⟩
    rw [DepEdge.offset?_of_distance_eq_zero hdistance]
    rcases hoffset with ⟨hmove, rfl⟩ | ⟨hmove, rfl⟩
    · rw [hrestart.moves hg.exitRoot hmove hbundle']
    · rw [hrestart.exitBundles hg.exitRoot hmove, hbundle] at hbundle'
      rw [Option.some.inj hbundle']

theorem Restarted.limited (hsmall : g.IsSmall distance) (hinterval : interval ≤ g.allowance + 1)
    (hpipelining : bounds.pipelining = true)
    (hloop : bounds.loopInterval = (loopBounds interval).loopInterval) :
    bounds.Limited h ((distance + 1) * (g.allowance + 1)) := by
  have hblock := hrestart.ofBlock hg.toEnclosed
  have houtline := outline_eq_of_skeleton_eq hrestart.skeleton
  have hsize := size_eq_of_skeleton_eq hrestart.skeleton
  have htidy := hg.toTidy.of_skeleton_eq hrestart.skeleton
  have hroom := hsmall.room
  refine { toWellFormed := hblock.toWellFormed, toTidy := htidy,
           unfrozen := fun hunit => (hblock.units hunit).unfrozen,
           untangled := hg.untangled.of_outline_eq houtline, within := ?within, room := ?room }
  case within =>
    intro id unit hunit dep hdep
    have hget := Table.get?_of_mem_entries (htidy.tidy hunit).nodup hdep
    obtain ⟨bundle', hbundle', hdistance, hlatency⟩ :=
      hrestart.exists_bundle hg.toEnclosed ((bundle?_eq hunit dep.1).trans hget)
    have hle := latency_le_latencySum hbundle'
    have hsum : g.latencySum ≤ g.allowance := Nat.le_add_right _ _
    rw [ControlBounds.offset?, ControlBounds.interval?,
      if_pos ⟨hpipelining, hblock.block_eq hunit⟩, hloop]
    refine DepEdge.exists_offset? ?_ (hdistance ▸ hsmall.distances hbundle') hinterval ?_
    · rcases hlatency with heq | heq
      · rw [heq]
        omega
      · omega
    · exact (Nat.le_mul_of_pos_right _ (Nat.succ_pos _)).trans hroom
  case room => rwa [hsize]

/-- The system of an attempt can be built. -/
theorem Restarted.buildable (hsmall : g.IsSmall distance) (hinterval : interval ≤ g.allowance + 1)
    (hpipelining : bounds.pipelining = true)
    (hloop : bounds.loopInterval = (loopBounds interval).loopInterval)
    (hends : ∀ {last}, bounds.criticalPathEnd = some last → last ≤ 2 * (g.allowance + 1))
    (hchained : ∀ {order chain}, bounds.order = some order → chain ∈ order.chains →
      chain.block = block ∧ ∀ id ∈ chain.units, g.IsControl id) :
    ControlSystem.Buildable h bounds := by
  have hblock := hrestart.ofBlock hg.toEnclosed
  have houtline := outline_eq_of_skeleton_eq hrestart.skeleton
  have hsize := size_eq_of_skeleton_eq hrestart.skeleton
  have hroom := hsmall.room
  have hwords := hsmall.words
  have hcontrol : ∀ {id}, h.IsControl id → g.IsControl id := isControl_of_outline_eq houtline
  have hentrySlot : h.entrySlot = g.entrySlot := hblock.entrySlot.trans hg.entrySlot.symm
  refine { toSuits := LookThrough.suits_of_limited
             (hrestart.limited hg hsmall hinterval hpipelining hloop),
           size := ?size, exit := ?exit, slots := ?slots, entrySlot := ?entrySlot, ends := ?ends,
           chained := ?chained, intervals := ?intervals }
  case size =>
    rw [hsize]
    have hpos : 0 < (distance + 1) * (g.allowance + 1) := by positivity
    have := (Nat.le_mul_of_pos_left (g.units.size + 1) hpos).trans hroom
    omega
  case exit =>
    intro exit' hexit'
    obtain rfl : exit = exit' := Option.some.inj
      (hg.exitRoot.symm.trans ((exitRoot_of_skeleton_eq hrestart.skeleton).symm.trans hexit'))
    exact isControl_of_outline_eq houtline.symm hg.exitControl
  case slots =>
    intro id slot hid hslot
    by_cases hroot : id = g.entryRoot
    · subst hroot
      rw [hrestart.entry] at hslot
      cases hslot
      omega
    · by_cases hloopOp : 0 < interval ∧ g.loopOp = some id
      · rw [hrestart.loop hloopOp.1 hloopOp.2] at hslot
        cases hslot
        omega
      · rw [hrestart.cleared (hcontrol hid) hroot fun hpos heq => hloopOp ⟨hpos, heq⟩] at hslot
        cases hslot
  case entrySlot => omega
  case ends =>
    intro last hlast
    have := hends hlast
    omega
  case chained => exact fun horder hchain hid =>
    isControl_of_outline_eq houtline.symm ((hchained horder hchain).2 _ hid)
  case intervals =>
    intro order chain interval' horder hchain hinterval'
    rw [ControlBounds.interval?,
      if_pos ⟨hpipelining, (hchained horder hchain).1.trans hblock.entryBlock.symm⟩, hloop]
      at hinterval'
    obtain ⟨-, heq⟩ := Option.ite_none_right_eq_some.mp hinterval'
    cases heq
    omega

/-- What an attempt admits fits. -/
theorem Restarted.fits_of_admits (hpipelining : bounds.pipelining = true)
    (hloop : bounds.loopInterval = (loopBounds interval).loopInterval)
    (hslots : ControlSystem.Admits h bounds slots) : g.Fits exit interval slots := by
  have houtline := outline_eq_of_skeleton_eq hrestart.skeleton
  have hcontrol : ∀ {id}, g.IsControl id → h.IsControl id := isControl_of_outline_eq houtline.symm
  have hentrySlot : h.entrySlot = g.entrySlot :=
    (hrestart.ofBlock hg.toEnclosed).entrySlot.trans hg.entrySlot.symm
  have hentry : slots g.entryRoot = g.entrySlot := hslots.fixed (hcontrol hg.root) hrestart.entry
  have hbranch : ∀ {loop}, 0 < interval → g.loopOp = some loop →
      slots loop = g.entrySlot + interval := by
    intro loop hpos hloopOp
    rw [hslots.fixed (hcontrol (hg.loop hloopOp)) (hrestart.loop hpos hloopOp)]
    push_cast
    rfl
  refine ⟨hentry, hbranch, ?_, ?_, ?_, ?_⟩
  · intro id hid
    by_cases hroot : id = g.entryRoot
    · exact (hroot ▸ hentry).ge
    · by_cases hloopOp : 0 < interval ∧ g.loopOp = some id
      · rw [hbranch hloopOp.1 hloopOp.2]
        omega
      · rw [← hentrySlot]
        exact hslots.free (hcontrol hid)
          (hrestart.cleared hid hroot fun hpos heq => hloopOp ⟨hpos, heq⟩)
  · intro source user offset hsource huser hasks
    by_cases hexit : user = exit
    · subst hexit
      obtain ⟨bundle, hbundle, hoffset, -⟩ := exists_bundle_of_asks hg.toOfBlock hasks
      have hlocal : offset = bundle.edge.latency := by
        rw [hoffset, DepEdge.offsetAt, (hg.waits hbundle).2]
        simp
      by_cases hmove : g.IsMove source
      · have hwaits := hslots.direct (hcontrol hsource) (hcontrol huser)
          ((hrestart.asks_exit_iff hg hpipelining).mpr ⟨bundle, hbundle, Or.inl ⟨hmove, rfl⟩⟩)
        have hready := hg.movesReady hmove hbundle
        omega
      · exact hslots.direct (hcontrol hsource) (hcontrol huser)
          ((hrestart.asks_exit_iff hg hpipelining).mpr
            ⟨bundle, hbundle, Or.inr ⟨hmove, hlocal⟩⟩)
    · exact hslots.direct (hcontrol hsource) (hcontrol huser)
        ((hrestart.asks_iff_of_ne hg hpipelining hloop hexit).mpr hasks)
  · intro control source user span offset hspans huser hasks
    have hexit : user ≠ exit := by
      rintro rfl
      obtain ⟨bundle, hbundle, -⟩ := exists_bundle_of_asks hg.toOfBlock hasks
      exact (hg.waits hbundle).1.not_isData hspans.isData
    exact hslots.through ((hrestart.spans_iff hg hpipelining hloop).mpr hspans) (hcontrol huser)
      ((hrestart.asks_iff_of_ne hg hpipelining hloop hexit).mpr hasks)
  · intro source hmove hdepends
    obtain ⟨bundle, hbundle⟩ := dependsOn_iff_bundle?.mp hdepends
    exact hslots.direct (hcontrol (hg.waits hbundle).1) (hcontrol hg.exitControl)
      ((hrestart.asks_exit_iff hg hpipelining).mpr ⟨bundle, hbundle, Or.inl ⟨hmove, rfl⟩⟩)

/-- Slots that fit, end in time and keep the issue order are admitted by an attempt. -/
theorem Restarted.admits_of_fits (hpipelining : bounds.pipelining = true)
    (hloop : bounds.loopInterval = (loopBounds interval).loopInterval)
    (hslots : g.Fits exit interval slots)
    (hends : ∀ {last}, bounds.criticalPathEnd = some last → slots exit ≤ g.entrySlot + last)
    (hchains : ∀ {order chain}, bounds.order = some order → chain ∈ order.chains →
      (chain.units.map slots).Pairwise (· < ·))
    (hwindows : ∀ {order chain}, bounds.order = some order → chain ∈ order.chains →
      chain.block = block ∧ ∀ first ∈ chain.units.head?, ∀ last ∈ chain.units.getLast?,
        slots last - slots first < interval) :
    ControlSystem.Admits h bounds slots := by
  have houtline := outline_eq_of_skeleton_eq hrestart.skeleton
  have hcontrol : ∀ {id}, h.IsControl id → g.IsControl id := isControl_of_outline_eq houtline
  have hentrySlot : h.entrySlot = g.entrySlot :=
    (hrestart.ofBlock hg.toEnclosed).entrySlot.trans hg.entrySlot.symm
  refine ⟨?_, ?_, ?_, ?_, ?_, hchains, ?_⟩
  · intro id slot hid hslot
    by_cases hroot : id = g.entryRoot
    · subst hroot
      rw [hrestart.entry] at hslot
      cases hslot
      exact hslots.entry
    · by_cases hloopOp : 0 < interval ∧ g.loopOp = some id
      · rw [hrestart.loop hloopOp.1 hloopOp.2] at hslot
        cases hslot
        rw [hslots.loop hloopOp.1 hloopOp.2]
        push_cast
        rfl
      · rw [hrestart.cleared (hcontrol hid) hroot fun hpos heq => hloopOp ⟨hpos, heq⟩] at hslot
        cases hslot
  · intro id hid _
    rw [hentrySlot]
    exact hslots.free (hcontrol hid)
  · intro source user offset hsource huser hasks
    by_cases hexit : user = exit
    · subst hexit
      obtain ⟨bundle, hbundle, ⟨hmove, rfl⟩ | ⟨_, rfl⟩⟩ :=
        (hrestart.asks_exit_iff hg hpipelining).mp hasks
      · exact hslots.moves hmove (dependsOn_iff_bundle?.mpr ⟨bundle, hbundle⟩)
      · exact hslots.direct (hcontrol hsource) (hcontrol huser)
          (asks_of_local hg.toOfBlock hbundle (hg.waits hbundle).2 _)
    · exact hslots.direct (hcontrol hsource) (hcontrol huser)
        ((hrestart.asks_iff_of_ne hg hpipelining hloop hexit).mp hasks)
  · intro control source user span offset hspans huser hasks
    have hspans := (hrestart.spans_iff hg hpipelining hloop).mp hspans
    have hexit : user ≠ exit := by
      rintro rfl
      obtain ⟨bundle, hbundle, -⟩ := (hrestart.asks_exit_iff hg hpipelining).mp hasks
      exact (hg.waits hbundle).1.not_isData hspans.isData
    exact hslots.through hspans (hcontrol huser)
      ((hrestart.asks_iff_of_ne hg hpipelining hloop hexit).mp hasks)
  · intro exit' last hexit' hlast
    obtain rfl : exit = exit' := Option.some.inj
      (hg.exitRoot.symm.trans ((exitRoot_of_skeleton_eq hrestart.skeleton).symm.trans hexit'))
    rw [hentrySlot]
    exact hends hlast
  · intro order chain interval' horder hchain _ hinterval first hfirst last hlast
    obtain ⟨hchainBlock, hwindow⟩ := hwindows horder hchain
    rw [ControlBounds.interval?,
      if_pos ⟨hpipelining, hchainBlock.trans (hrestart.ofBlock hg.toEnclosed).entryBlock.symm⟩,
      hloop] at hinterval
    obtain ⟨-, heq⟩ := Option.ite_none_right_eq_some.mp hinterval
    cases heq
    exact hwindow first hfirst last hlast

end

end Graph

end SlotScheduling
