import SlotScheduling.Proofs.Graph.Ends
import SlotScheduling.Proofs.Pipeline.Components
import SlotScheduling.Proofs.Pipeline.Found
import SlotScheduling.Proofs.Pipeline.MinInterval

/-!
# What bounds the interval of a search

The search starts from the least interval that is computed and only raises it.  So
the interval it ends with leaves room for the units on every function unit, and
meets every cycle of dependencies, also one that shares its component with a cycle
that no interval meets.
-/

namespace SlotScheduling

namespace Graph

variable {g g' : Graph} {block : BlockId} {id first last : UnitId}
  {route : List (UnitId × DepEdge)}

/-- Dependencies within a block lead from one unit to another.  A step of the route is the unit it
leads to, with the edge that leads there. -/
def IsRoute (g : Graph) (block : BlockId) : UnitId → List (UnitId × DepEdge) → UnitId → Prop
  | first, [], last => first = last
  | first, step :: rest, last =>
    g.LinksWithin block first step.1 step.2 ∧ IsRoute g block step.1 rest last

/-- A closed route that comes to no unit twice. -/
def IsCycle (g : Graph) (block : BlockId) (cycle : List (UnitId × DepEdge)) : Prop :=
  ∃ first, g.IsRoute block first cycle first ∧ (cycle.map Prod.fst).Nodup

theorem unitsOn_length_of_skeleton_eq (h : g'.skeleton = g.skeleton) (block : BlockId)
    (funcUnit : FuncUnit) :
    (g'.unitsOn block funcUnit).length = (g.unitsOn block funcUnit).length := by
  let test : ScheduleUnit → Bool := fun unit =>
    (unit.control ∧ unit.funcUnit = funcUnit) && unit.block = block
  have hcount : ∀ g : Graph, (g.unitsOn block funcUnit).length =
      (g.units.map ScheduleUnit.outline).toList.countP test := by
    intro g
    rw [unitsOn, unitsOf, ← List.countP_eq_length_filter, List.countP_filter, Array.toList_map,
      List.countP_map]
    rfl
  have hunits : g'.units.map ScheduleUnit.outline = g.units.map ScheduleUnit.outline :=
    congrArg Graph.units (outline_eq_of_skeleton_eq h)
  rw [hcount, hcount, hunits]

/-- A later schedule of the same graph ends no earlier. -/
theorem Later.exists_endSlot (h : Later g g') (hg : g.Listed) {slot : Nat}
    (hslot : g.endSlot block = .ok (some slot)) :
    ∃ slot', g'.endSlot block = .ok (some slot') ∧ slot ≤ slot' := by
  obtain ⟨⟨id, unit, hunit, hcontrol, hblock, hunitSlot⟩, _⟩ := (endSlot_eq_some hg).mp hslot
  obtain ⟨unit', hunit', hagree⟩ := exists_of_frame_eq h.frame.symm hunit
  obtain ⟨slot', hslot', hle⟩ := h.slots ((slot?_eq hunit).trans hunitSlot)
  have htaken : g'.IsTaken block slot' := ⟨id, unit', hunit', hagree.control ▸ hcontrol,
    hagree.block ▸ hblock, (slot?_eq hunit').symm.trans hslot'⟩
  obtain ⟨end_, hend, hle'⟩ := htaken.exists_endSlot
    (hg.of_outline_eq (outline_eq_of_skeleton_eq (skeleton_eq_of_frame_eq h.frame)))
  exact ⟨end_, hend, hle.trans hle'⟩

/-! ## Routes as walks -/

/-- The place of a unit among the units of its block. -/
def placeIn (g : Graph) (block : BlockId) (id : UnitId) : Nat :=
  ((g.unitsOf block).map (·.id)).idxOf id

/-- The arcs that a route takes. -/
def arcsOf (g : Graph) (block : BlockId) : UnitId → List (UnitId × DepEdge) → List LoopArc
  | _, [] => []
  | first, step :: rest =>
    ⟨g.placeIn block first, g.placeIn block step.1, step.2⟩ :: g.arcsOf block step.1 rest

theorem getElem?_placeIn (hg : g.Listed) {unit : ScheduleUnit} (hunit : g.units[id]? = some unit)
    (hblock : unit.block = block) : (g.unitsOf block)[g.placeIn block id]? = some unit := by
  have hid := hg.positions hunit
  have hmem : unit ∈ g.unitsOf block := (mem_unitsOf hg).mpr ⟨hid.symm ▸ hunit, hblock⟩
  obtain ⟨place, hplace⟩ := List.mem_iff_getElem?.mp hmem
  have hget : ((g.unitsOf block).map (·.id))[place]? = some id := by
    rw [List.getElem?_map, hplace, Option.map_some, hid]
  obtain ⟨hlt, hget⟩ := List.getElem?_eq_some_iff.mp hget
  have hindex : g.placeIn block id = place := by
    rw [placeIn, ← hget]
    exact (hg.nodup_unitsOf block).idxOf_getElem place hlt
  rw [hindex, hplace]

/-- Different units of a block have different places. -/
theorem placeIn_inj {unit unit' : ScheduleUnit} {other : UnitId} (hg : g.Listed)
    (hunit : g.units[id]? = some unit) (hblock : unit.block = block)
    (hunit' : g.units[other]? = some unit') (hblock' : unit'.block = block)
    (h : g.placeIn block id = g.placeIn block other) : id = other := by
  have hplace := getElem?_placeIn hg hunit hblock
  rw [h, getElem?_placeIn hg hunit' hblock'] at hplace
  rw [← hg.positions hunit, ← hg.positions hunit', Option.some.inj hplace]

theorem LinksWithin.mem_arcs (hg : g.Listed) {edge : DepEdge}
    (h : g.LinksWithin block first last edge) :
    LoopArc.mk (g.placeIn block first) (g.placeIn block last) edge ∈
      LoopArc.ofUnits (g.unitsOf block) := by
  have hlinks := h
  obtain ⟨producer, consumer, _, hproducer, hblock, hconsumer, hblock', _, _⟩ := h
  refine (mem_loopArcs hg).mpr ⟨producer, consumer, getElem?_placeIn hg hproducer hblock,
    getElem?_placeIn hg hconsumer hblock', ?_⟩
  rwa [hg.positions hproducer, hg.positions hconsumer]

theorem IsRoute.isWalk (hg : g.Listed) (h : g.IsRoute block first route last) :
    LoopArc.IsWalk (LoopArc.ofUnits (g.unitsOf block)) (g.placeIn block first)
      (g.arcsOf block first route) (g.placeIn block last) := by
  induction route generalizing first with
  | nil => exact congrArg (g.placeIn block) h
  | cons step rest ih =>
      obtain ⟨hlinks, hrest⟩ := h
      exact ⟨hlinks.mem_arcs hg, rfl, ih hrest⟩

theorem IsRoute.targets (h : g.IsRoute block first route last) :
    ∀ id ∈ route.map Prod.fst, ∃ unit, g.units[id]? = some unit ∧ unit.block = block := by
  induction route generalizing first with
  | nil => simp
  | cons step rest ih =>
      obtain ⟨⟨_, consumer, _, _, _, hconsumer, hblock, _⟩, hrest⟩ := h
      rw [List.map_cons, List.forall_mem_cons]
      exact ⟨⟨consumer, hconsumer, hblock⟩, ih hrest⟩

theorem edges_arcsOf (g : Graph) (block : BlockId) (first : UnitId)
    (route : List (UnitId × DepEdge)) :
    (g.arcsOf block first route).map (·.edge) = route.map Prod.snd := by
  induction route generalizing first with
  | nil => rfl
  | cons step rest ih => rw [arcsOf, List.map_cons, ih, List.map_cons]

/-- What the edges of a route add up to, its arcs add up to. -/
theorem sum_arcsOf (g : Graph) (block : BlockId) (first : UnitId) (route : List (UnitId × DepEdge))
    (amount : DepEdge → Nat) :
    ((g.arcsOf block first route).map fun arc => amount arc.edge).sum =
      (route.map fun step => amount step.2).sum := by
  have hmap := congrArg (List.map amount) (g.edges_arcsOf block first route)
  rw [List.map_map, List.map_map] at hmap
  exact congrArg List.sum hmap

theorem targets_arcsOf (g : Graph) (block : BlockId) (first : UnitId)
    (route : List (UnitId × DepEdge)) :
    (g.arcsOf block first route).map (·.target) = (route.map Prod.fst).map (g.placeIn block) := by
  induction route generalizing first with
  | nil => rfl
  | cons step rest ih => rw [arcsOf, List.map_cons, ih, List.map_cons, List.map_cons]

theorem bounded_loopArcs (hg : g.Listed) (block : BlockId) :
    LoopArc.Bounded (g.unitsOf block).length (LoopArc.ofUnits (g.unitsOf block)) := by
  intro arc harc
  obtain ⟨_, _, hproducer, hconsumer, _⟩ := (mem_loopArcs hg).mp harc
  exact ⟨(List.getElem?_eq_some_iff.mp hproducer).1, (List.getElem?_eq_some_iff.mp hconsumer).1⟩

/-- A route that comes to no unit twice takes no arc twice. -/
theorem IsRoute.nodup_arcs (hg : g.Listed) (h : g.IsRoute block first route last)
    (hsimple : (route.map Prod.fst).Nodup) : (g.arcsOf block first route).Nodup := by
  refine List.Nodup.of_map (·.target) ?_
  rw [targets_arcsOf]
  refine hsimple.map_on fun id hid other hother heq => ?_
  obtain ⟨unit, hunit, hblock⟩ := h.targets id hid
  obtain ⟨unit', hunit', hblock'⟩ := h.targets other hother
  exact placeIn_inj hg hunit hblock hunit' hblock' heq

end Graph

namespace MinInterval

open SlotScheduling.Graph

variable {σ : Type} {g : Graph} {block : BlockId} {component : Component} {now last : Journaled σ}
  {needed bound : Nat}

/-- The interval of a recurrence suits it, or makes up for all its latencies. -/
theorem suits_or_sum_latency_le (hclosed : component.Closed)
    (h : recurrenceInterval component now = .ok needed last) :
    component.Suits needed ∨ (component.arcs.map (·.edge.latency)).sum ≤ needed := by
  obtain ⟨_, hbound, _⟩ := Step.lift_bind_eq_ok.mp h
  obtain ⟨hwords, _⟩ := Component.intervalBound_eq_ok.mp hbound
  rcases recurrenceInterval_cases (σ := σ) hclosed hwords with
    ⟨found, hfound, _, hleast⟩ | ⟨hsum, _⟩ | ⟨_, hfault, _⟩
  · rw [hfound now] at h
    cases h
    exact Or.inl hleast.1.2
  · obtain ⟨_, hsum⟩ := hsum now
    rw [hsum] at h
    cases h
    exact Or.inr (Nat.le_max_left _ _)
  · rw [hfault now] at h
    cases h

theorem le_of_longest {components : List Component} {least : Nat}
    (h : longest components least now = .ok bound last) :
    least ≤ bound ∧ ∀ component ∈ components, ∃ now' needed last',
      (recurrenceInterval component : Step σ Nat) now' = .ok needed last' ∧ needed ≤ bound := by
  induction components generalizing least now with
  | nil =>
      obtain ⟨rfl, _⟩ := Step.pure_eq_ok.mp h
      exact ⟨le_rfl, by simp⟩
  | cons component rest ih =>
      rw [longest_cons] at h
      obtain ⟨needed, middle, hneeded, h⟩ := Step.bind_eq_ok.mp h
      obtain ⟨hle, hrest⟩ := ih h
      rw [Nat.max_le] at hle
      exact ⟨hle.1, List.forall_mem_cons.mpr ⟨⟨now, needed, middle, hneeded, hle.2⟩, hrest⟩⟩

/-- A component that holds an arc with a distance is a recurrence. -/
theorem mem_recurrences {arc : LoopArc}
    (hmem : component ∈ Component.all (g.unitsOf block).length (LoopArc.ofUnits (g.unitsOf block)))
    (harc : arc ∈ component.arcs) (hdistance : 0 < arc.edge.distance) :
    component ∈ recurrences g block := by
  rw [recurrences_eq]
  refine List.mem_filter.mpr ⟨hmem, List.any_eq_true.mpr ⟨arc, harc, ?_⟩⟩
  simpa [DepEdge.isLoopCarried] using hdistance

/-- A closed route that spans an iteration stays within one recurrence. -/
theorem exists_recurrence (hg : g.Listed) {first : UnitId} {route : List (UnitId × DepEdge)}
    (hroute : g.IsRoute block first route first) (hspan : 0 < (route.map (·.2.distance)).sum) :
    ∃ component ∈ recurrences g block, LoopArc.IsWalk component.arcs (g.placeIn block first)
      (g.arcsOf block first route) (g.placeIn block first) := by
  rw [← sum_arcsOf g block first route DepEdge.distance] at hspan
  obtain ⟨arc, harc, hcarried⟩ : ∃ arc ∈ g.arcsOf block first route, 0 < arc.edge.distance := by
    by_contra hnone
    have hzero : ((g.arcsOf block first route).map (·.edge.distance)).sum = 0 :=
      List.sum_eq_zero fun distance hmem => by
        obtain ⟨arc, harc, rfl⟩ := List.mem_map.mp hmem
        exact Nat.eq_zero_of_not_pos fun hpos => hnone ⟨arc, harc, hpos⟩
    omega
  have hwalk := hroute.isWalk hg
  obtain ⟨component, hmem, hinside⟩ :=
    hwalk.exists_component (bounded_loopArcs hg block) (List.ne_nil_of_mem harc)
  exact ⟨component, mem_recurrences hmem (hinside arc harc) hcarried, hwalk.mono hinside⟩

/-- The bound of the recurrences meets every cycle. -/
theorem sum_latency_le (hg : g.Listed) (h : recurrenceBound g block now = .ok bound last)
    {cycle : List (UnitId × DepEdge)} (hcycle : g.IsCycle block cycle)
    (hdistance : 1 ≤ (cycle.map (·.2.distance)).sum) :
    (cycle.map (·.2.latency)).sum ≤ bound * (cycle.map (·.2.distance)).sum := by
  obtain ⟨first, hroute, hsimple⟩ := hcycle
  obtain ⟨component, hrecurrence, hwalk⟩ := exists_recurrence hg hroute hdistance
  rw [recurrenceBound_eq] at h
  rw [← sum_arcsOf g block first cycle DepEdge.latency,
    ← sum_arcsOf g block first cycle DepEdge.distance]
  rw [← sum_arcsOf g block first cycle DepEdge.distance] at hdistance
  obtain ⟨_, needed, _, hneeded, hle⟩ :=
    (le_of_longest h).2 component hrecurrence
  refine le_trans ?_ (Nat.mul_le_mul_right _ hle)
  rcases suits_or_sum_latency_le (of_mem_recurrences hrecurrence).1 hneeded with
    ⟨value, hvalue⟩ | hsum
  · exact hvalue.sum_latency_le hwalk
  · calc ((g.arcsOf block first cycle).map (·.edge.latency)).sum
        ≤ (component.arcs.map (·.edge.latency)).sum :=
          Component.sum_latency_le_sum (hroute.nodup_arcs hg hsimple)
            fun arc harc => (hwalk.reaches.2 arc harc).1
      _ ≤ needed := hsum
      _ ≤ needed * ((g.arcsOf block first cycle).map (·.edge.distance)).sum :=
          Nat.le_mul_of_pos_right needed hdistance

end MinInterval

namespace PipelineSearch

open SlotScheduling.Graph

variable {interval least : Nat} {now last : Journaled Graph}

/-! ## The interval only grows -/

/-- The bounds of a search. -/
def limits (search : PipelineSearch) : Nat × Nat × Nat :=
  (search.interval, search.criticalPathEnd, search.ceiling)

theorem keeps_limits_onGraph {α : Type} (work : Step Graph α) : (onGraph work).Keeps limits := by
  intro now
  unfold onGraph Step.focus
  cases work ⟨now.state.graph, now.journal⟩ <;> rfl

theorem keeps_limits_tryPlace (bounds : ControlBounds) : (tryPlace bounds).Keeps limits := by
  unfold tryPlace
  apply Step.keeps_current.bind
  intro search
  apply (Step.keeps_lift _).bind
  intro system
  split
  · exact (keeps_limits_onGraph _).bind fun _ => Step.keeps_pure true
  · split
    · exact (Step.keeps_note _ _).bind fun _ => Step.keeps_pure false
    · exact Step.keeps_fail _
  · exact Step.keeps_lift _

theorem keeps_limits_placeCriticalPath : placeCriticalPath.Keeps limits := by
  unfold placeCriticalPath
  apply Step.keeps_current.bind
  intro search
  apply (keeps_limits_onGraph _).bind
  exact fun _ => keeps_limits_tryPlace _

theorem keeps_limits_placeState : placeState.Keeps limits := by
  unfold placeState
  apply keeps_limits_placeCriticalPath.bind
  intro placed
  cases placed with
  | false => exact Step.keeps_pure false
  | true =>
      apply Step.keeps_current.bind
      intro search
      apply (Step.keeps_lift _).bind
      intro order
      apply (keeps_limits_onGraph _).bind
      exact fun _ => keeps_limits_tryPlace _

/-- The interval of the search is no shorter than this. -/
def IsAtLeast (least : Nat) (search : PipelineSearch) : Prop := least ≤ search.interval

theorem maintains_isAtLeast_of_keeps {α : Type} {step : Step PipelineSearch α}
    (h : step.Keeps limits) : step.Maintains (IsAtLeast least) := by
  refine h.maintains fun search search' heq hleast => ?_
  have hinterval : search'.interval = search.interval := congrArg Prod.fst heq
  exact hleast.trans_eq hinterval.symm

theorem maintains_isAtLeast_increaseInterval : increaseInterval.Maintains (IsAtLeast least) := by
  unfold increaseInterval
  refine Step.maintains_current_bind fun search hsearch => ?_
  refine Step.maintains_lift_bind fun interval hinterval => ?_
  obtain ⟨_, rfl⟩ := Word.add_eq_ok.mp hinterval
  apply Step.Maintains.bind
  · exact Step.maintains_update fun _ _ => Nat.le_succ_of_le hsearch
  · exact fun _ => Step.maintains_note _ _

theorem maintains_isAtLeast_lengthenCriticalPath :
    lengthenCriticalPath.Maintains (IsAtLeast least) := by
  unfold lengthenCriticalPath
  refine Step.maintains_current_bind fun search _ => ?_
  refine (Step.maintains_lift _).bind fun criticalPathEnd => ?_
  apply Step.Maintains.bind
  · exact Step.maintains_update fun _ hsearch => hsearch
  intro _
  refine Step.maintains_current_bind fun search' _ => ?_
  split
  · have hgiveUp : giveUp.Keeps limits := Step.keeps_current.bind fun _ => Step.keeps_fail _
    exact (maintains_isAtLeast_of_keeps hgiveUp).bind fun _ => Step.maintains_note _ _
  · exact Step.maintains_note _ _

theorem maintains_isAtLeast_reachState (rounds : Nat) :
    (reachState rounds).Maintains (IsAtLeast least) := by
  induction rounds with
  | zero => exact maintains_isAtLeast_of_keeps (Step.keeps_current.bind fun _ => Step.keeps_fail _)
  | succ rounds ih =>
      have hrelax : ∀ relax : Step PipelineSearch PUnit, relax.Maintains (IsAtLeast least) →
          (relax >>= fun _ => reachState rounds).Maintains (IsAtLeast least) :=
        fun relax hrelax => hrelax.bind fun _ => ih
      rw [reachState]
      refine (maintains_isAtLeast_of_keeps keeps_limits_placeCriticalPath).bind fun placed => ?_
      cases placed with
      | false =>
          refine hrelax relaxDependencies (Step.maintains_current_bind fun search _ => ?_)
          refine (Step.maintains_lift _).bind fun twice => ?_
          exact Step.maintains_ite maintains_isAtLeast_increaseInterval
            maintains_isAtLeast_lengthenCriticalPath
      | true =>
          refine (maintains_isAtLeast_of_keeps keeps_limits_placeState).bind fun shared => ?_
          cases shared with
          | true => exact Step.maintains_pure _
          | false =>
              refine hrelax relaxSharing (Step.maintains_current_bind fun search _ => ?_)
              exact Step.maintains_ite maintains_isAtLeast_increaseInterval
                maintains_isAtLeast_lengthenCriticalPath

/-! ## What a search guarantees -/

/-- The part of a search before its least interval is computed.  Yields the graph for which it will
be computed. -/
def measured : Step Graph Graph := do
  let search ← start
  Step.focus (fun graph => { search with graph }) (fun _ search => search.graph) do
    reachCriticalPath (search.ceiling + 1 - search.criticalPathEnd)
    return (← Step.current).graph

/-- The interval of a pipelined block, and what it is long enough for. -/
structure Guarantees (block : BlockId) (interval : Nat) (measured g : Graph) : Prop where
  recorded : g.interval? block = some interval
  loop : ∃ loopOp unit, g.loopOp = some loopOp ∧ g.units[loopOp]? = some unit ∧
    (unit.phi = false → unit.slot = some (g.entrySlot + interval) ∧
      ∃ end_, g.endSlot block = .ok (some end_) ∧ g.entrySlot + interval ≤ end_)
  funcUnits : ∀ funcUnit : FuncUnit, funcUnit.isTrivial = false →
    (g.unitsOn block funcUnit).length ≤ interval
  cycles : ∀ cycle, measured.IsCycle block cycle → 1 ≤ (cycle.map (·.2.distance)).sum →
    (cycle.map (·.2.latency)).sum ≤ interval * (cycle.map (·.2.distance)).sum

/-- What was computed before the search went on. -/
theorem computeInterval_eq_ok {now last : Journaled PipelineSearch} {result : PUnit}
    (h : computeInterval now = .ok result last) :
    ∃ bound middle, MinInterval.compute now.state.graph now.state.graph.entryBlock now =
      .ok bound middle ∧ last.state.interval = bound.value := by
  rw [computeInterval, Step.current_bind] at h
  obtain ⟨bound, middle, hbound, h⟩ := Step.bind_eq_ok.mp h
  rw [Step.update_bind, Step.note_eq_ok] at h
  exact ⟨bound, middle, hbound, by rw [h]⟩

/-- A commit records the interval, and leaves a loop operation that is no move where it was. -/
theorem loop_of_commit {now last : Journaled PipelineSearch} (hg : now.state.graph.Listed)
    (hpositive : 1 ≤ interval) (h : commit now = .ok interval last) :
    last.state.graph.interval? now.state.graph.entryBlock = some interval ∧
      ∃ loopOp unit, last.state.graph.loopOp = some loopOp ∧
        last.state.graph.units[loopOp]? = some unit ∧ (unit.phi = false →
          unit.slot = some (last.state.graph.entrySlot + interval) ∧
          ∃ end_, last.state.graph.endSlot now.state.graph.entryBlock = .ok (some end_) ∧
            last.state.graph.entrySlot + interval ≤ end_) := by
  obtain ⟨_, _, ⟨loopOp, hloopOp, hslot⟩, ⟨end_, hend, hwithin⟩, _, delayed, hdelay, hlast⟩ :=
    commit_cases h
  have hlater := later_delayPhis hdelay
  have hentry : delayed.state.entrySlot = now.state.graph.entrySlot := by
    have hentry := entrySlot_of_frame_eq hlater.frame
    exact hentry
  rw [hlast, interval?_of_frame_eq hlater.frame]
  refine ⟨interval?_setInterval _ _ _, ?_⟩
  obtain ⟨unit, hunit, _⟩ := Option.bind_eq_some_iff.mp hslot
  obtain ⟨unit', hunit', hagree⟩ := exists_of_frame_eq hlater.frame.symm hunit
  refine ⟨loopOp, unit', (loopOp_of_frame_eq hlater.frame).trans hloopOp, hunit', fun hphi => ?_⟩
  have hkept := hlater.kept hunit (hagree.phi.trans hphi)
  rw [hentry]
  refine ⟨(slot?_eq hunit').symm.trans (hkept.trans hslot), ?_⟩
  cases end_ with
  | none =>
      rw [Option.getD_none] at hwithin
      omega
  | some before =>
      obtain ⟨end_, hend, hle⟩ := hlater.exists_endSlot (hg.of_outline_eq rfl) hend
      exact ⟨end_, hend, le_trans hwithin hle⟩

/-- A search that ends well has found an interval that leaves room for every function
unit and meets every cycle. -/
theorem guarantees_of_run (hg : now.state.Reachable) (h : run now = .ok interval last) :
    ∃ g middle, measured now = .ok g middle ∧
      Guarantees now.state.entryBlock interval g last.state := by
  obtain ⟨search, started, reached, bounded, found, committed, hstart, hreach, hbound, hfind,
    hcommit, rfl⟩ := run_stages h
  have hmeasured : measured now =
      .ok reached.state.graph ⟨reached.state.graph, reached.journal⟩ := by
    refine Step.bind_eq_ok.mpr ⟨search, started, hstart, Step.focus_eq_ok.mpr ⟨reached, ?_, rfl⟩⟩
    exact Step.bind_eq_ok.mpr ⟨_, reached, hreach, rfl⟩
  refine ⟨reached.state.graph, _, hmeasured, ?_⟩
  -- The graphs of all stages have the same skeleton.
  have hreached : reached.state.graph.skeleton = now.state.skeleton :=
    (((keeps_reachCriticalPath _).comp Prod.fst).of_eq_ok hreach).trans
      ((keeps_start.comp Prod.fst).of_eq_ok hstart)
  have hfound : found.state.graph.skeleton = now.state.skeleton :=
    (((keeps_reachState _).comp Prod.fst).of_eq_ok hfind).trans
      (((keeps_computeInterval.comp Graph.skeleton).of_eq_ok hbound).trans hreached)
  have hcommitted : committed.state.graph.skeleton = reached.state.graph.skeleton :=
    (keeps_commit.of_eq_ok hcommit).trans (hfound.trans hreached.symm)
  have hentryBlock : ∀ {g : Graph}, g.skeleton = now.state.skeleton →
      g.entryBlock = now.state.entryBlock :=
    fun h => eq_of_skeleton_eq (·.entryBlock) h fun _ => rfl
  have hlisted : ∀ {g : Graph}, g.skeleton = now.state.skeleton → g.Listed :=
    fun h => hg.coherent.toListed.of_outline_eq (outline_eq_of_skeleton_eq h)
  -- The interval is no shorter than the one computed.
  obtain ⟨bound, _, hcompute, hvalue⟩ := computeInterval_eq_ok hbound
  rw [hentryBlock hreached] at hcompute
  obtain ⟨hresource, _, hrecurrence⟩ := MinInterval.exists_compute_eq_ok.mp ⟨_, hcompute⟩
  have hgrown : IsAtLeast bounded.state.interval found.state :=
    (maintains_isAtLeast_reachState _).of_eq_ok (Nat.le_refl _) hfind
  have hleast : bound.value ≤ interval :=
    hvalue.symm.trans_le (hgrown.trans_eq (commit_cases hcommit).1.symm)
  obtain ⟨⟨hresourceLe, hrecurrenceLe⟩, hpositive⟩ :
      (bound.resource ≤ interval ∧ bound.recurrence ≤ interval) ∧ 1 ≤ interval := by
    rwa [MinInterval.value, Nat.max_le, Nat.max_le] at hleast
  obtain ⟨hrecorded, hloop⟩ := loop_of_commit (hlisted hfound) hpositive hcommit
  rw [hentryBlock hfound] at hrecorded hloop
  refine ⟨hrecorded, hloop, fun funcUnit hshared => ?_, fun cycle hcycle hdistance => ?_⟩
  · rw [unitsOn_length_of_skeleton_eq hcommitted]
    exact (MinInterval.resourceBound_eq_ok (hlisted hreached) hresource).mp hresourceLe
      funcUnit hshared
  · exact (MinInterval.sum_latency_le (hlisted hreached) hrecurrence hcycle hdistance).trans
      (Nat.mul_le_mul_right _ hrecurrenceLe)

/-- A loop with two accesses to one memory, which reach each other through a move and
an addition, also over two iterations. -/
def turningLoop : Graph :=
  (Graph.start 7 1).after [
    .createUnit (.op 0) 7 ⟨.memoryBus, 0⟩ true 1,
    .createUnit (.op 1) 7 .trivial false 1,
    .createUnit (.op 2) 7 ⟨.memoryBus, 0⟩ true 1,
    .createUnit (.op 3) 7 .trivial true 1,
    .addDep 1 0 (.value 0),
    .addDep 2 1 (.value 2),
    .addDep 3 2 (.value 1),
    .addDep 1 3 (.loopCarried 2 2),
    .addDep 4 1 (.value 1),
    .setTerminator 7 4,
    .trySetLoopOp 4 (some 7),
    .createExit 7,
    .addDep 5 3 (.value 1),
    .addDep 5 4 (.value 0)]

theorem guarantees_of_run_turningLoop :
    ∃ interval last g middle, run ⟨turningLoop, {}⟩ = .ok interval last ∧
      measured ⟨turningLoop, {}⟩ = .ok g middle ∧
      Guarantees turningLoop.entryBlock interval g last.state := by
  have hreachable : turningLoop.Reachable := (Reachable.start 7 1).after (by simp [Call.merged])
  have hsucceeds : run.succeeds ⟨turningLoop, {}⟩ (fun _ => true) = true := by
    decide +kernel
  obtain ⟨interval, last, hrun, _⟩ := Step.exists_of_succeeds hsucceeds
  have hnow : (Journaled.mk turningLoop {}).state.Reachable := hreachable
  obtain ⟨g, middle, hmeasured, hguarantees⟩ := guarantees_of_run hnow hrun
  exact ⟨interval, last, g, middle, hrun, hmeasured, hguarantees⟩

end PipelineSearch

end SlotScheduling
