import SlotScheduling.Proofs.Pipeline.Found
import SlotScheduling.Proofs.Pipeline.Shared
import SlotScheduling.Proofs.Placement.Chains

/-!
# What an attempt of the search comes to

No attempt fails on the graph of a loop with small numbers.  It places the control units as early as
the dependencies allow, or there are no slots that fit within its bounds; and likewise when the
units of a shared function unit have to issue in order.
-/

namespace SlotScheduling

namespace Graph

/-- The slot of a unit as a number, and zero without one. -/
def slotAt (g : Graph) (id : UnitId) : Int := ((g.slot? id).getD 0 : Nat)

theorem slotAt_eq {g : Graph} {id : UnitId} {slot : Nat} (h : g.slot? id = some slot) :
    g.slotAt id = slot := by
  rw [slotAt, h, Option.getD_some]

theorem exists_placeAll {g : Graph} {placements : List (UnitId × Nat)}
    (hids : ∀ placement ∈ placements, placement.1 < g.units.size) :
    ∃ g', g.placeAll placements = .ok g' := by
  refine (Checked.exists_foldlM (P := fun now : Graph => now.units.size = g.units.size)
    (fun placement hmem now hsize => ?_) rfl).imp fun _ h => h.1
  exact ⟨_, changeUnit_eq_ok.mpr ⟨hsize ▸ hids placement hmem, rfl⟩, by simpa using hsize⟩

end Graph

namespace ControlSystem

open ConstraintSystem

/-- The second graph is the first one with the earliest slots that its control path admits. -/
structure Solves (g : Graph) (bounds : ControlBounds) (g' : Graph) : Prop
    extends Placed g bounds g' where
  admits : Admits g bounds g'.slotAt
  least : ∀ {slots}, Admits g bounds slots → ∀ {id}, g.IsControl id → g'.slotAt id ≤ slots id

variable {g g' : Graph} {bounds : ControlBounds} {sys : ConstraintSystem}
  {placed : List (UnitId × Nat)}

theorem solves_of_earliest (hg : Buildable g bounds) (hbuild : build g bounds = .ok sys)
    (hplaced : sys.earliest = .ok placed) (hplace : g.placeAll placed = .ok g') :
    Solves g bounds g' := by
  obtain ⟨base, hdescribes⟩ := exists_describes hbuild
  have hplaces := hdescribes.places hplaced hplace
  have hslots : slotsOf g sys (valuesOf placed) = g'.slotAt := by
    funext id
    rw [slotsOf, valueOf?_congr hdescribes.grows.keepsUnits, ← hplaces id, Graph.slotAt]
    cases g'.slot? id <;> rfl
  obtain ⟨hadmits, hleast⟩ := admits_earliest hg hbuild hplaced
  rw [hslots] at hadmits hleast
  exact ⟨hdescribes.placed hplaced hplace, hadmits, hleast⟩

/-- The units with variables can be placed. -/
theorem exists_placeAll (hg : g.Listed) (hbuild : build g bounds = .ok sys)
    (hplaced : sys.earliest = .ok placed) : ∃ g', g.placeAll placed = .ok g' := by
  obtain ⟨base, hdescribes⟩ := exists_describes hbuild
  refine Graph.exists_placeAll fun placement hmem => ?_
  exact (hg.control.mp ((hdescribes.mem_placed hplaced).mp (List.mem_map_of_mem hmem)).1).lt_size

theorem Solves.slotAt_lt (h : Solves g bounds g') (hg : Buildable g bounds) {id : UnitId}
    (hid : g.IsControl id) : g'.slotAt id < Word.count := by
  obtain ⟨slot, hslot⟩ := h.scheduled (hg.control.mpr hid)
  rw [Graph.slotAt_eq hslot]
  cases hold : g.slot? id with
  | none =>
      have := (h.range (hg.control.mpr hid) hold hslot).2
      omega
  | some old =>
      obtain rfl := Option.some.inj ((h.kept hold).symm.trans hslot)
      have := hg.slots hid hold
      omega

end ControlSystem

namespace PipelineSearch

open SlotScheduling.Graph

variable {g : Graph} {block : BlockId} {entrySlot distance : Nat} {exit branch : UnitId}
  {now : Journaled PipelineSearch} {bounds : ControlBounds}

/-- An attempt either finds the earliest slots that are admitted, or there are none. -/
theorem exists_tryPlace (hg : ControlSystem.Buildable now.state.graph bounds) :
    ∃ placed last, tryPlace bounds now = .ok placed last ∧
      last.state = { now.state with graph := last.state.graph } ∧
      ((placed = true ∧ ControlSystem.Solves now.state.graph bounds last.state.graph) ∨
        (placed = false ∧ last.state = now.state ∧
          ∀ {slots}, ControlSystem.Admits now.state.graph bounds slots →
            ¬∀ {id}, now.state.graph.IsControl id → 0 ≤ slots id ∧ slots id < Word.count)) := by
  obtain ⟨sys, hbuild, -⟩ := ControlSystem.exists_build hg
  obtain ⟨base, hdescribes⟩ := ControlSystem.exists_describes hbuild
  have hclosed := hdescribes.grows.closed hdescribes.free.closed
  rcases ConstraintSystem.earliest_cases hclosed with ⟨slots, hslots⟩ | ⟨reason, hreason⟩
  · obtain ⟨g', hplace⟩ := ControlSystem.exists_placeAll hg.toListed hbuild hslots
    refine ⟨true, ⟨{ now.state with graph := g' }, now.journal⟩, ?_, rfl,
      Or.inl ⟨rfl, ControlSystem.solves_of_earliest hg hbuild hslots hplace⟩⟩
    rw [tryPlace, Step.current_bind]
    refine Step.lift_bind_eq_ok.mpr ⟨sys, hbuild, ?_⟩
    rw [hslots]
    refine Step.bind_eq_ok.mpr ⟨⟨⟩, _, ?_, Step.pure_eq_ok.mpr ⟨rfl, rfl⟩⟩
    exact onGraph_eq_ok.mpr ⟨_, Step.updateChecked_eq_ok.mpr ⟨g', hplace, rfl⟩, rfl⟩
  · obtain ⟨journal, hrun⟩ : ∃ journal, tryPlace bounds now = .ok false ⟨now.state, journal⟩ := by
      have hsystem : (liftM (ControlSystem.build now.state.graph bounds) :
          Step PipelineSearch ConstraintSystem) now = .ok sys now :=
        Step.lift_eq_ok.mpr ⟨hbuild, rfl⟩
      simp only [tryPlace, Step.current_bind]
      simp only [bind, EStateM.bind, hsystem, hreason]
      exact ⟨_, rfl⟩
    refine ⟨false, _, hrun, rfl, Or.inr ⟨rfl, rfl, fun hadmits hwords => ?_⟩⟩
    obtain ⟨slots, hslots⟩ := ControlSystem.exists_earliest_of_admits hg hbuild hadmits hwords
    rw [hreason] at hslots
    cases hslots

/-! ## The critical path -/

/-- What a search for a loop is about: its graph is like the one it started from, and its bounds are
small. -/
structure Searches (g : Graph) (search : PipelineSearch) : Prop where
  similar : Similar g search.graph
  interval : search.interval ≤ g.allowance + 1
  criticalPathEnd : search.criticalPathEnd ≤ 2 * (g.allowance + 1)

/-- The slots fit, end in time, and are the lowest ones that do. -/
structure IsEarliest (g : Graph) (exit : UnitId) (interval last : Nat) (slots : UnitId → Int) :
    Prop extends g.Fits exit interval slots where
  ends : slots exit ≤ g.entrySlot + last
  least : ∀ {slots'}, g.Fits exit interval slots' → slots' exit ≤ g.entrySlot + last →
    ∀ {id}, g.IsControl id → slots id ≤ slots' id

/-- There are slots that fit and end in time. -/
def Feasible (g : Graph) (exit : UnitId) (interval last : Nat) : Prop :=
  ∃ slots : UnitId → Int, g.Fits exit interval slots ∧ slots exit ≤ g.entrySlot + last ∧
    ∀ {id}, g.IsControl id → slots id < Word.count

theorem Feasible.mono {interval last last' : Nat} (h : Feasible g exit interval last)
    (hle : last ≤ last') : Feasible g exit interval last' := by
  obtain ⟨slots, hfits, hends, hwords⟩ := h
  exact ⟨slots, hfits, by omega, hwords⟩

theorem Searches.place {search search' : PipelineSearch} (h : Searches g search)
    (hsame : search' = { search with graph := search'.graph })
    (hsimilar : Similar g search'.graph) : Searches g search' := by
  rw [hsame]
  exact ⟨hsimilar, h.interval, h.criticalPathEnd⟩

/-- Where all later units of a chain come within an interval, so does the last one. -/
theorem window_of_pairwise {units : List UnitId} {slots : UnitId → Int} {interval : Nat}
    (hpos : 0 < interval) (h : units.Pairwise fun u v => slots v - slots u < interval)
    {first last : UnitId} (hfirst : units.head? = some first) (hlast : units.getLast? = some last) :
    slots last - slots first < interval := by
  cases units with
  | nil => cases hfirst
  | cons head tail =>
      cases hfirst
      rcases List.mem_cons.mp (List.mem_of_getLast? hlast) with rfl | hmem
      · rw [sub_self]
        exact Int.natCast_pos.mpr hpos
      · exact (List.pairwise_cons.mp h).1 last hmem

/-- Units of one chain share a function unit and issue in its order. -/
theorem pairwise_of_chain {h : Graph} {order : IssueOrder} {chain : IssueChain}
    (hg : g.OfBlock block entrySlot) (hskeleton : h.skeleton = g.skeleton)
    (horder : IssueOrder.build h = .ok order) (hchain : chain ∈ order.chains) :
    chain.block = block ∧ (∀ id ∈ chain.units, g.IsControl id) ∧
      chain.units.Pairwise fun u v => g.Shares u v ∧ Issues h.slotAt u v := by
  have houtline := outline_eq_of_skeleton_eq hskeleton
  obtain ⟨order', hbuilt, hchains⟩ :=
    IssueOrder.exists_build (hg.of_skeleton_eq hskeleton)
  obtain rfl : order' = order := Except.ok.inj (hbuilt.symm.trans horder)
  obtain ⟨hblock, hpairs, hcontrol, funcUnit, hshared, hfuncUnit⟩ := hchains chain hchain
  have hcontrol : ∀ id ∈ chain.units, g.IsControl id :=
    fun id hid => isControl_of_outline_eq houtline (hcontrol id hid)
  have hbound : ∀ {id unit}, id ∈ chain.units → g.units[id]? = some unit →
      unit.funcUnit = funcUnit := by
    intro id unit hid hunit
    obtain ⟨unit', hunit', hsame, -⟩ := exists_of_skeleton_eq hskeleton.symm hunit
    exact (ScheduleUnit.funcUnit_of_skeleton_eq hsame).trans (hfuncUnit id hid unit' hunit')
  refine ⟨hblock, hcontrol, hpairs.imp_of_mem fun {u v} hu hv hprecedes => ⟨⟨?_, ?_⟩, ?_⟩⟩
  · rintro rfl
    exact lt_irrefl _ hprecedes
  · obtain ⟨unit, hunit, hflag⟩ := hcontrol u hu
    obtain ⟨unit', hunit', hflag'⟩ := hcontrol v hv
    exact ⟨unit, unit', hunit, hunit', hflag, hflag',
      (hbound hu hunit).trans (hbound hv hunit').symm, hbound hu hunit ▸ hshared⟩
  · rcases Prod.Lex.toLex_lt_toLex.mp hprecedes with hlt | ⟨heq, hlt⟩
    · exact Or.inl (Int.ofNat_lt.mpr hlt)
    · exact Or.inr ⟨congrArg Nat.cast heq, hlt⟩

section

variable (hg : g.Looping block entrySlot exit branch) (hsmall : g.IsSmall distance)

include hg hsmall

theorem exists_reset (hsearch : Searches g now.state) :
    ∃ last, onGraph (resetControl now.state.interval) now = .ok ⟨⟩ last ∧
      last.state = { now.state with graph := last.state.graph } ∧
      Restarted now.state.interval g last.state.graph := by
  have hwords := hsmall.words
  have hinterval := hsearch.interval
  have hword : g.entrySlot + now.state.interval < Word.count := by omega
  obtain ⟨inner, hreset, hrestarted⟩ := exists_resetControl hg.toEnclosed
    (show Similar g (⟨now.state.graph, now.journal⟩ : Journaled Graph).state from hsearch.similar)
    (fun _ => ⟨branch, hg.loops⟩) fun _ => hword
  exact ⟨_, onGraph_eq_ok.mpr ⟨inner, hreset, rfl⟩, rfl, hrestarted⟩

omit hsmall in
theorem ends_of_admits {h : Graph} {interval last : Nat} {slots : UnitId → Int}
    (hrestarted : Restarted interval g h) (hadmits : ControlSystem.Admits h bounds slots)
    (hlast : bounds.criticalPathEnd = some last) : slots exit ≤ g.entrySlot + last := by
  have hroot := (exitRoot_of_skeleton_eq hrestarted.skeleton).trans hg.exitRoot
  have hends := hadmits.ends hroot hlast
  rwa [(hrestarted.ofBlock hg.toEnclosed).entrySlot, ← hg.entrySlot] at hends

/-- The critical path is placed as early as possible, if there are slots that fit. -/
theorem exists_placeCriticalPath (hsearch : Searches g now.state) :
    ∃ placed last, placeCriticalPath now = .ok placed last ∧
      last.state = { now.state with graph := last.state.graph } ∧
      Widened now.state.interval g last.state.graph ∧
      ((placed = true ∧ Feasible g exit now.state.interval now.state.criticalPathEnd ∧
          IsEarliest g exit now.state.interval now.state.criticalPathEnd
            last.state.graph.slotAt) ∨
        (placed = false ∧ ¬Feasible g exit now.state.interval now.state.criticalPathEnd)) := by
  obtain ⟨reset, hreset, hsame, hrestarted⟩ := exists_reset hg hsmall hsearch
  have hbuildable : ControlSystem.Buildable reset.state.graph
      { pipelining := true
        loopInterval := if 0 < now.state.interval then some now.state.interval else none
        criticalPathEnd := some now.state.criticalPathEnd } :=
    hrestarted.buildable hg hsmall hsearch.interval rfl rfl
      (fun hlast => Option.some.inj hlast ▸ hsearch.criticalPathEnd) (fun horder => by cases horder)
  obtain ⟨placed, last, htry, hlast, hcases⟩ := exists_tryPlace hbuildable
  have houtline := outline_eq_of_skeleton_eq hrestarted.skeleton
  have hcontrol : ∀ {id}, g.IsControl id → reset.state.graph.IsControl id :=
    isControl_of_outline_eq houtline.symm
  refine ⟨placed, last, ?_, ?_, ?_, ?_⟩
  · rw [placeCriticalPath, Step.current_bind]
    exact Step.bind_eq_ok.mpr ⟨_, reset, hreset, htry⟩
  · rw [hlast, hsame]
  · rcases hcases with ⟨-, hsolves⟩ | ⟨-, heq, -⟩
    · exact hrestarted.toWidened.of_frame_eq hsolves.frame
    · rw [heq]
      exact hrestarted.toWidened
  · rcases hcases with ⟨rfl, hsolves⟩ | ⟨rfl, -, hnone⟩
    · have hends := ends_of_admits hg hrestarted hsolves.admits rfl
      have hfits := hrestarted.fits_of_admits hg (by rfl) (by rfl) hsolves.admits
      refine Or.inl ⟨rfl, ⟨_, hfits, hends, fun hid => hsolves.slotAt_lt hbuildable (hcontrol hid)⟩,
        hfits, hends, ?_⟩
      intro slots hfits hlast id hid
      refine hsolves.least (hrestarted.admits_of_fits hg rfl rfl hfits (fun heq => ?_)
        (fun horder => by cases horder) (fun horder => by cases horder)) (hcontrol hid)
      cases heq
      exact hlast
    · refine Or.inr ⟨rfl, ?_⟩
      rintro ⟨slots, hfits, hlast, hwords⟩
      refine hnone (hrestarted.admits_of_fits hg rfl rfl hfits (fun heq => ?_)
        (fun horder => by cases horder) (fun horder => by cases horder)) fun {id} hid => ?_
      · cases heq
        exact hlast
      · have hid := isControl_of_outline_eq houtline hid
        exact ⟨(Int.natCast_nonneg _).trans (hfits.free hid), hwords hid⟩

/-! ## The state -/

/-- Slots that keep units of shared function units in order, within one interval. -/
def InOrder (g : Graph) (interval : Nat) (slots slots' : UnitId → Int) : Prop :=
  ∀ {u v}, g.Shares u v → Issues slots u v →
    slots' u < slots' v ∧ slots' v - slots' u < interval

/-- Slots that fit within the bounds and the order of an earliest schedule. -/
def FeasibleInOrder (g : Graph) (exit : UnitId) (interval last : Nat) (slots : UnitId → Int) :
    Prop :=
  ∃ slots', g.Fits exit interval slots' ∧ slots' exit ≤ g.entrySlot + last ∧
    (∀ {id}, g.IsControl id → slots' id ≤ g.entrySlot + last) ∧ InOrder g interval slots slots'

omit hsmall in
/-- Slots that keep the order of the earliest ones are admitted where the chains ask for it. -/
theorem admits_of_inOrder {earliest h : Graph} {order : IssueOrder} {interval last : Nat}
    {slots : UnitId → Int} (hrestarted : Restarted interval g h) (hpos : 0 < interval)
    (hsimilar : Similar g earliest) (horder : IssueOrder.build earliest = .ok order)
    (hfits : g.Fits exit interval slots) (hends : slots exit ≤ g.entrySlot + last)
    (hordered : InOrder g interval earliest.slotAt slots) :
    ControlSystem.Admits h
      { pipelining := true
        loopInterval := some interval
        criticalPathEnd := some last
        order := some order
        moduloWindow := true } slots := by
  have hchain : ∀ {chain}, chain ∈ order.chains → _ := fun hmem =>
    pairwise_of_chain hg.toOfBlock hsimilar.skeleton horder hmem
  have hchains : ∀ {chain}, chain ∈ order.chains → chain.units.Pairwise fun u v =>
      slots u < slots v ∧ slots v - slots u < interval := fun hmem =>
    (hchain hmem).2.2.imp fun h => hordered h.1 h.2
  refine hrestarted.admits_of_fits hg rfl (if_pos hpos).symm hfits (fun heq => ?_)
    (fun heq hmem => ?_) fun {_ chain} heq hmem => ⟨?_, fun first hfirst last hlast => ?_⟩
  · cases heq
    exact hends
  · cases heq
    exact List.pairwise_map.mpr ((hchains hmem).imp And.left)
  · cases heq
    exact (hchain hmem).1
  · cases heq
    exact window_of_pairwise hpos ((hchains hmem).imp And.right) hfirst hlast

/-- All control units are placed in slots that fit and end in time. -/
structure Settles (g : Graph) (exit : UnitId) (interval last : Nat) (h : Graph) : Prop
    extends g.Fits exit interval h.slotAt where
  ends : h.slotAt exit ≤ g.entrySlot + last
  placed : ∀ {id}, g.IsControl id → ∃ slot, h.slot? id = some slot

/-- Where the critical path can be placed, so can the state, or no slots that fit keep the order of
the earliest ones. -/
theorem exists_placeState (hsearch : Searches g now.state) (hpos : 0 < now.state.interval)
    (hfeasible : Feasible g exit now.state.interval now.state.criticalPathEnd) :
    ∃ placed last, placeState now = .ok placed last ∧
      last.state = { now.state with graph := last.state.graph } ∧
      Similar g last.state.graph ∧
      ((placed = true ∧
          Settles g exit now.state.interval now.state.criticalPathEnd last.state.graph) ∨
        (placed = false ∧ ∃ slots,
          IsEarliest g exit now.state.interval now.state.criticalPathEnd slots ∧
          ¬FeasibleInOrder g exit now.state.interval now.state.criticalPathEnd slots)) := by
  obtain ⟨_, tried, hfirst, htried, hwidened, ⟨rfl, -, hearliest⟩ | ⟨-, hnone⟩⟩ :=
    exists_placeCriticalPath hg hsmall hsearch
  swap
  · exact absurd hfeasible hnone
  have hsimilar := hwidened.toSimilar
  obtain ⟨order, horder, -⟩ :=
    IssueOrder.exists_build (hg.toOfBlock.of_skeleton_eq hsimilar.skeleton)
  have hsearch' := hsearch.place htried hsimilar
  obtain ⟨reset, hreset, hsame, hrestarted⟩ := exists_reset hg hsmall hsearch'
  have hinterval : tried.state.interval = now.state.interval := by rw [htried]
  have hend : tried.state.criticalPathEnd = now.state.criticalPathEnd := by rw [htried]
  have hloop : some tried.state.interval = (loopBounds tried.state.interval).loopInterval :=
    (if_pos (hinterval ▸ hpos)).symm
  have hbuildable : ControlSystem.Buildable reset.state.graph
      { pipelining := true
        loopInterval := some tried.state.interval
        criticalPathEnd := some tried.state.criticalPathEnd
        order := some order
        moduloWindow := true } :=
    hrestarted.buildable hg hsmall hsearch'.interval rfl hloop
      (fun hlast => Option.some.inj hlast ▸ hsearch'.criticalPathEnd) fun heq hmem => by
        cases heq
        obtain ⟨hblock, hcontrol, -⟩ := pairwise_of_chain hg.toOfBlock hsimilar.skeleton horder hmem
        exact ⟨hblock, hcontrol⟩
  obtain ⟨placed, last, htry, hlast, hcases⟩ := exists_tryPlace hbuildable
  have houtline := outline_eq_of_skeleton_eq hrestarted.skeleton
  refine ⟨placed, last, ?_, ?_, ?_, ?_⟩
  · refine Step.bind_eq_ok.mpr ⟨true, tried, hfirst, ?_⟩
    rw [if_pos rfl, Step.current_bind]
    exact Step.lift_bind_eq_ok.mpr ⟨order, horder, Step.bind_eq_ok.mpr ⟨_, reset, hreset, htry⟩⟩
  · rw [hlast, hsame, htried]
  · rcases hcases with ⟨-, hsolves⟩ | ⟨-, heq, -⟩
    · exact hrestarted.toSimilar.of_frame_eq hsolves.frame
    · rw [heq]
      exact hrestarted.toSimilar
  · rw [← hinterval, ← hend]
    rcases hcases with ⟨rfl, hsolves⟩ | ⟨rfl, -, hnone⟩
    · have hends := ends_of_admits hg hrestarted hsolves.admits rfl
      exact Or.inl ⟨rfl, hrestarted.fits_of_admits hg (by rfl) hloop hsolves.admits, hends,
        fun hid => hsolves.scheduled
          (hbuildable.control.mpr (isControl_of_outline_eq houtline.symm hid))⟩
    · rw [← hinterval, ← hend] at hearliest
      refine Or.inr ⟨rfl, _, hearliest, ?_⟩
      rintro ⟨slots, hfits, hlast, hwords, hordered⟩
      refine hnone (admits_of_inOrder hg hrestarted (hinterval ▸ hpos) hsimilar horder hfits hlast
        hordered) fun {id} hid => ?_
      have hid := isControl_of_outline_eq houtline hid
      have hword := hwords hid
      have hsmallEnd := hsearch'.criticalPathEnd
      have hsmallWords := hsmall.words
      exact ⟨(Int.natCast_nonneg _).trans (hfits.free hid), by omega⟩

end

end PipelineSearch

end SlotScheduling
