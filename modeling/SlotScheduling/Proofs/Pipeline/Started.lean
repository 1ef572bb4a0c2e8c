import SlotScheduling.Proofs.Pipeline.Attempts

/-!
# How a search starts

The graph on which a search starts over is the one of the loop, with moves that the exit need not
wait for.  The first critical path always has a schedule, no longer than all latencies together, and
the least interval is at most one more than what the ceiling leaves room for.
-/

namespace SlotScheduling

namespace Graph

variable {g h : Graph} {block : BlockId} {entrySlot interval distance limit : Nat}
  {id exit branch user source : UnitId}

theorem dependsOn_iff_of_outline_eq (hsame : h.outline = g.outline) :
    h.DependsOn user source ↔ g.DependsOn user source :=
  ⟨dependsOn_of_outline_eq hsame, dependsOn_of_outline_eq hsame.symm⟩

theorem isControl_iff_of_outline_eq (hsame : h.outline = g.outline) :
    h.IsControl id ↔ g.IsControl id :=
  ⟨isControl_of_outline_eq hsame, isControl_of_outline_eq hsame.symm⟩

theorem Enclosed.of_skeleton_eq (hg : Enclosed block entrySlot exit g)
    (hsame : h.skeleton = g.skeleton) : Enclosed block entrySlot exit h := by
  have houtline := outline_eq_of_skeleton_eq hsame
  have hloop : h.loopOp = g.loopOp := eq_of_skeleton_eq (·.loopOp) hsame fun _ => rfl
  have hunits : ∀ {id : UnitId} {unit : ScheduleUnit}, h.units[id]? = some unit →
      ∃ unit', g.units[id]? = some unit' ∧ unit.control = unit'.control ∧ unit.phi = unit'.phi ∧
        unit.funcUnit = unit'.funcUnit := by
    intro id unit hunit
    obtain ⟨unit', hunit', hskeleton, -⟩ := exists_of_skeleton_eq hsame hunit
    exact ⟨unit', hunit', ScheduleUnit.control_of_skeleton_eq hskeleton,
      phi_of_skeleton_eq hskeleton, ScheduleUnit.funcUnit_of_skeleton_eq hskeleton⟩
  have hplain : ∀ {id : UnitId} {unit : ScheduleUnit}, h.units[id]? = some unit →
      (∀ {unit}, g.units[id]? = some unit → unit.funcUnit.isTrivial = true ∧ unit.phi = false) →
      unit.funcUnit.isTrivial = true ∧ unit.phi = false := by
    intro id unit hunit hplain
    obtain ⟨unit', hunit', -, hphi, hfuncUnit⟩ := hunits hunit
    rw [hphi, hfuncUnit]
    exact hplain hunit'
  refine ⟨hg.toOfBlock.of_skeleton_eq hsame, hg.toTidy.of_skeleton_eq hsame,
    (exitRoot_of_skeleton_eq hsame).trans hg.exitRoot,
    (isControl_iff_of_outline_eq houtline).mpr hg.exitControl,
    hg.last.trans (size_eq_of_skeleton_eq hsame).symm, fun hloopOp => hg.loopOp (hloop ▸ hloopOp),
    fun hdepends => hg.first ((dependsOn_iff_of_outline_eq houtline).mp hdepends),
    fun hdepends => hg.final ((dependsOn_iff_of_outline_eq houtline).mp hdepends),
    fun hbundle => ?_, fun hunit hcontrol hphi => ?_, fun hid hne => ?_,
    fun hunit => hplain hunit hg.entryUnit, fun hunit => hplain hunit hg.exitUnit⟩
  · obtain ⟨bundle', hbundle', heq⟩ := exists_bundle_of_outline_eq houtline hbundle
    obtain ⟨hcontrol, hlocal⟩ := hg.waits hbundle'
    have hdistance := congrArg (fun bundle => bundle.edge.distance) heq
    exact ⟨(isControl_iff_of_outline_eq houtline).mpr hcontrol, hdistance.trans hlocal⟩
  · obtain ⟨unit', hunit', hcontrol', hphi', -⟩ := hunits hunit
    exact (dependsOn_iff_of_outline_eq houtline).mpr
      (hg.moves hunit' (hcontrol'.symm.trans hcontrol) (hphi'.symm.trans hphi))
  · obtain ⟨user, hdepends⟩ := hg.used ((isControl_iff_of_outline_eq houtline).mp hid) hne
    exact ⟨user, (dependsOn_iff_of_outline_eq houtline).mpr hdepends⟩

theorem waitsWithin_of_outline_eq (hsame : h.outline = g.outline)
    (hwaits : h.WaitsWithin source user) : g.WaitsWithin source user := by
  obtain ⟨bundle, hbundle, hlocal⟩ := hwaits
  obtain ⟨bundle', hbundle', heq⟩ := exists_bundle_of_outline_eq hsame hbundle
  have hdistance := congrArg (fun bundle => bundle.edge.distance) heq
  exact ⟨bundle', hbundle', hdistance.symm.trans hlocal⟩

theorem Shares.of_skeleton_eq (hsame : h.skeleton = g.skeleton) (hshares : h.Shares source user) :
    g.Shares source user := by
  obtain ⟨hne, unit, unit', hunit, hunit', hcontrol, hcontrol', hon, hshared⟩ := hshares
  obtain ⟨found, hfound, hskeleton, -⟩ := exists_of_skeleton_eq hsame hunit
  obtain ⟨found', hfound', hskeleton', -⟩ := exists_of_skeleton_eq hsame hunit'
  have hfuncUnit := ScheduleUnit.funcUnit_of_skeleton_eq hskeleton
  have hfuncUnit' := ScheduleUnit.funcUnit_of_skeleton_eq hskeleton'
  exact ⟨hne, found, found', hfound, hfound',
    (ScheduleUnit.control_of_skeleton_eq hskeleton).symm.trans hcontrol,
    (ScheduleUnit.control_of_skeleton_eq hskeleton').symm.trans hcontrol',
    hfuncUnit.symm.trans (hon.trans hfuncUnit'), hfuncUnit ▸ hshared⟩

theorem MovesUnshared.of_skeleton_eq (hg : g.MovesUnshared) (hsame : h.skeleton = g.skeleton) :
    h.MovesUnshared := by
  intro source user move hshares hmove hbefore
  refine hg (hshares.of_skeleton_eq hsame) ((isMove_of_skeleton_eq hsame).mp hmove) ?_
  exact Relation.ReflTransGen.mono (fun _ _ => waitsWithin_of_outline_eq
    (outline_eq_of_skeleton_eq hsame)) _ _ hbefore

/-! ## Latencies -/

/-- A graph of the same outline with no longer latencies has no larger sum of them. -/
theorem latencySum_le (hg : g.Tidy) (htidy : h.Tidy) (hsame : h.outline = g.outline)
    (hle : ∀ {user source bundle bundle'}, h.bundle? user source = some bundle →
      g.bundle? user source = some bundle' → bundle.edge.latency ≤ bundle'.edge.latency) :
    h.latencySum ≤ g.latencySum := by
  have hsize : h.units.size = g.units.size := by
    have hsize := congrArg (fun g : Graph => g.units.size) hsame
    simpa [outline] using hsize
  rw [← sum_latencyInto, ← sum_latencyInto, hsize]
  refine Finset.sum_le_sum fun id hid => ?_
  have hid : id < h.units.size := hsize ▸ Finset.mem_range.mp hid
  have hunit := Array.getElem?_eq_getElem hid
  obtain ⟨unit', hunit', houtline⟩ := exists_of_outline_eq hsame hunit
  rw [latencyInto, hunit, latencyInto, hunit', Option.map_some, Option.map_some, Option.getD_some,
    Option.getD_some, Table.values, Table.values, List.map_map, List.map_map]
  have hpairs : List.Forall₂ (fun dep dep' : UnitId × EdgeBundle => dep.1 = dep'.1)
      h.units[id].deps.entries unit'.deps.entries := by
    have hkeys := ScheduleUnit.keys_eq_of_outline_eq houtline
    rwa [← List.forall₂_eq_eq_eq, Table.keys, Table.keys, List.forall₂_map_left_iff,
      List.forall₂_map_right_iff] at hkeys
  refine List.Forall₂.sum_le_sum ?_
  rw [List.forall₂_map_left_iff, List.forall₂_map_right_iff]
  obtain ⟨hlength, hget⟩ := List.forall₂_iff_get.mp hpairs
  refine List.forall₂_iff_get.mpr ⟨hlength, fun index hlt hlt' => ?_⟩
  have hbundle := Table.get?_of_mem_entries (htidy.tidy hunit).nodup (List.get_mem _ ⟨index, hlt⟩)
  have hbundle' := Table.get?_of_mem_entries (hg.tidy hunit').nodup (List.get_mem _ ⟨index, hlt'⟩)
  rw [← hget index hlt hlt'] at hbundle'
  exact hle ((bundle?_eq hunit _).trans hbundle) ((bundle?_eq hunit' _).trans hbundle')

/-- Without an interval, the exit waits for moves no longer than it did. -/
theorem Widened.bundle?_eq (hg : g.Looping block entrySlot exit branch) (hwidened : Widened 0 g h) :
    h.bundle? user source = g.bundle? user source := by
  have houtline := outline_eq_of_skeleton_eq hwidened.skeleton
  have hready : ∀ {bundle : EdgeBundle}, bundle.edge.latency = 0 →
      bundle.withLatency 0 = bundle := by
    intro bundle hready
    rw [← hready]
    rfl
  by_cases hexit : user = exit
  · subst hexit
    by_cases hmove : g.IsMove source
    · refine Option.ext fun bundle => ⟨fun hbundle => ?_, fun hbundle => ?_⟩
      · obtain ⟨bundle', hbundle', heq⟩ := exists_bundle_of_outline_eq houtline hbundle
        rwa [← hready (hwidened.moves hg.exitRoot hmove hbundle), heq,
          hready (hg.movesReady hmove hbundle')]
      · obtain ⟨bundle', hbundle', heq⟩ := exists_bundle_of_outline_eq houtline.symm hbundle
        rwa [← hready (hg.movesReady hmove hbundle), heq,
          hready (hwidened.moves hg.exitRoot hmove hbundle')]
    · exact hwidened.exitBundles hg.exitRoot hmove
  · exact congrFun (hwidened.bundle?_of_ne hg.toEnclosed hexit) source

theorem Widened.isCycle (hg : g.Looping block entrySlot exit branch) (hwidened : Widened 0 g h)
    {cycle : List (UnitId × DepEdge)} (hcycle : g.IsCycle block cycle) : h.IsCycle block cycle := by
  have hlinks : ∀ {source user edge}, g.LinksWithin block source user edge →
      h.LinksWithin block source user edge := by
    rintro source user _ ⟨_, consumer, bundle, -, -, hconsumer, -, hmem, rfl⟩
    have hbundle := (Graph.bundle?_eq hconsumer source).trans
      (Table.get?_of_mem_entries (hg.toTidy.tidy hconsumer).nodup hmem)
    rw [← hwidened.bundle?_eq hg] at hbundle
    exact linksWithin_of_bundle? (hwidened.toSimilar.ofBlock hg.toEnclosed) hbundle
  have hroute : ∀ {first last route}, g.IsRoute block first route last →
      h.IsRoute block first route last := by
    intro first last route hroute
    induction route generalizing first with
    | nil => exact hroute
    | cons step rest ih => exact ⟨hlinks hroute.1, ih hroute.2⟩
  exact hcycle.imp fun _ hcycle => ⟨hroute hcycle.1, hcycle.2⟩

/-- Dependencies that span few iterations span few slots. -/
theorem Widened.not_outreaches (hwidened : Widened interval g h)
    (hg : Enclosed block entrySlot exit g)
    (hdistances : ∀ {user source bundle}, g.bundle? user source = some bundle →
      bundle.edge.distance ≤ distance)
    (hroom : distance * limit ≤ 2 ^ 62) : ¬h.Outreaches block limit := by
  rintro ⟨source, _, _, ⟨_, consumer, bundle, -, -, hconsumer, -, hmem, rfl⟩, hspan⟩
  have htidy := hg.toTidy.of_skeleton_eq hwidened.skeleton
  obtain ⟨_, hbundle, hdistance, -⟩ := hwidened.exists_bundle hg <|
    (Graph.bundle?_eq hconsumer source).trans
      (Table.get?_of_mem_entries (htidy.tidy hconsumer).nodup hmem)
  have hle : bundle.edge.distance * limit ≤ distance * limit :=
    Nat.mul_le_mul_right limit (hdistance.trans_le (hdistances hbundle))
  exact DepEdge.not_outreaches_of_lt (by omega) hspan

/-! ## Starting over -/

theorem Restarted.self (hrestart : Restarted interval g h) : Restarted interval h h := by
  have hentrySlot : h.entrySlot = g.entrySlot :=
    eq_of_skeleton_eq (·.entrySlot) hrestart.skeleton fun _ => rfl
  have hloopOp : h.loopOp = g.loopOp :=
    eq_of_skeleton_eq (·.loopOp) hrestart.skeleton fun _ => rfl
  refine ⟨⟨.refl h, fun hroot hmove => ?_⟩, ?_, fun hpos hloop => ?_,
    fun hid hne hloop => ?_⟩
  · exact hrestart.moves ((exitRoot_of_skeleton_eq hrestart.skeleton).symm.trans hroot)
      ((isMove_of_skeleton_eq hrestart.skeleton).mp hmove)
  · rw [hentrySlot]
    exact hrestart.entry
  · rw [hentrySlot]
    exact hrestart.loop hpos (hloopOp ▸ hloop)
  · exact hrestart.cleared
      (isControl_of_outline_eq (outline_eq_of_skeleton_eq hrestart.skeleton) hid) hne
      fun hpos heq => hloop hpos (hloopOp.trans heq)

section

variable (hg : Enclosed block entrySlot exit g) (hrestart : Restarted 0 g h)

include hg hrestart

/-- Starting over without an interval yields a graph that a search can work on. -/
theorem Restarted.looping (hloop : g.loopOp = some branch) (hbranch : ¬g.IsMove branch)
    (husers : ∀ {user}, g.DependsOn user branch → g.exitRoot = some user)
    (hforward : ∀ {source user}, g.WaitsWithin source user → source < user)
    (huntangled : g.Untangled) : h.Looping block entrySlot exit branch := by
  have houtline := outline_eq_of_skeleton_eq hrestart.skeleton
  refine ⟨hg.of_skeleton_eq hrestart.skeleton,
    (eq_of_skeleton_eq (·.loopOp) hrestart.skeleton fun _ => rfl).trans hloop,
    fun hmove => hbranch ((isMove_of_skeleton_eq hrestart.skeleton).mp hmove),
    fun hdepends => ?_,
    fun hbundle hlocal => hforward (waitsWithin_of_outline_eq houtline ⟨_, hbundle, hlocal⟩),
    huntangled.of_outline_eq houtline,
    fun hmove hbundle => hrestart.moves hg.exitRoot
      ((isMove_of_skeleton_eq hrestart.skeleton).mp hmove) hbundle⟩
  exact Option.some.inj
    ((husers (dependsOn_of_outline_eq houtline hdepends)).symm.trans hg.exitRoot)

theorem Restarted.isSmall (hsmall : g.IsSmall distance) : h.IsSmall distance := by
  have houtline := outline_eq_of_skeleton_eq hrestart.skeleton
  have hsum : h.latencySum ≤ g.latencySum := by
    refine latencySum_le hg.toTidy (hg.toTidy.of_skeleton_eq hrestart.skeleton) houtline
      fun {user source bundle bundle'} hbundle hbundle' => ?_
    obtain ⟨found, hfound, -, hcases⟩ := hrestart.exists_bundle hg hbundle
    obtain rfl := Option.some.inj (hfound.symm.trans hbundle')
    rcases hcases with rfl | hzero
    · exact le_rfl
    · exact hzero.trans_le (Nat.zero_le _)
  have hallowance : h.allowance ≤ g.allowance := by
    rw [allowance, allowance, controlUnits_eq_of_outline_eq houtline]
    exact Nat.add_le_add_right hsum _
  refine ⟨fun hbundle => ?_, ?_, ?_⟩
  · obtain ⟨_, hfound, hdistance, -⟩ := hrestart.exists_bundle hg hbundle
    rw [hdistance]
    exact hsmall.distances hfound
  · rw [size_eq_of_skeleton_eq hrestart.skeleton]
    exact (Nat.mul_le_mul_right _ (Nat.mul_le_mul_left _ (Nat.succ_le_succ hallowance))).trans
      hsmall.room
  · have hwords := hsmall.words
    have hentrySlot : h.entrySlot = g.entrySlot :=
      eq_of_skeleton_eq (·.entrySlot) hrestart.skeleton fun _ => rfl
    omega

end

end Graph

namespace MinInterval

open SlotScheduling.Graph

variable {σ : Type} {g h : Graph} {block : BlockId} {entrySlot distance limit : Nat}
  {exit branch : UnitId} {component : Component}

/-- As many control units are bound to one function unit as there are control units at most. -/
theorem length_unitsOn_le_controlUnits (hg : g.Listed) (block : BlockId) (funcUnit : FuncUnit) :
    (g.unitsOn block funcUnit).length ≤ g.controlUnits.length := by
  have hnodup : ((g.unitsOn block funcUnit).map (·.id)).Nodup :=
    (hg.nodup_unitsOf block).sublist (List.filter_sublist.map _)
  have hsubset : (g.unitsOn block funcUnit).map (·.id) ⊆ g.controlUnits := by
    intro id hid
    obtain ⟨unit, hunit, rfl⟩ := List.mem_map.mp hid
    obtain ⟨hunit, hon⟩ := List.mem_filter.mp hunit
    exact hg.control.mpr ⟨unit, ((mem_unitsOf hg).mp hunit).1, (of_decide_eq_true hon).1⟩
  simpa using (List.subperm_of_subset hnodup hsubset).length_le

theorem sublist_map_filterMap {deps : List (UnitId × EdgeBundle)} (source? : UnitId → Option Nat)
    (target : Nat) : ((deps.filterMap fun dep =>
      (source? dep.1).map fun source => LoopArc.mk source target dep.2.edge).map
        (·.edge.latency)).Sublist ((deps.map Prod.snd).map (·.edge.latency)) := by
  induction deps with
  | nil => exact .slnil
  | cons dep rest ih =>
      rw [List.filterMap_cons]
      cases source? dep.1 with
      | none => exact ih.cons _
      | some source => exact ih.cons_cons _

/-- The latencies within a component are among those of the graph. -/
theorem sum_latency_component_le (hmem : component ∈ recurrences g block) :
    (component.arcs.map (·.edge.latency)).sum ≤ g.latencySum := by
  rw [recurrences_eq] at hmem
  obtain ⟨node, -, rfl⟩ := List.mem_map.mp (List.mem_filter.mp hmem).1
  have harcs : ((LoopArc.ofUnits (g.unitsOf block)).map (·.edge.latency)).Sublist
      (g.units.toList.flatMap fun unit => unit.deps.values.map (·.edge.latency)) := by
    have hunits : (g.unitsOf block).Sublist g.units.toList := List.filter_sublist
    refine .trans ?_ (hunits.flatMap _)
    rw [LoopArc.ofUnits, List.map_flatMap, ← List.zipIdx_map_fst 0 (g.unitsOf block),
      List.flatMap_map, List.zipIdx_map_fst]
    refine List.Sublist.flatMap_right _ fun entry _ => ?_
    exact sublist_map_filterMap (((g.unitsOf block).map (·.id)).idxOf? ·) entry.2
  exact ((List.filter_sublist.map _).trans harcs).sum_le_sum fun _ _ => Nat.zero_le _

/-- No recurrence needs an interval longer than its latencies together. -/
theorem exists_recurrenceInterval_le (hg : g.Listed) (hmem : component ∈ recurrences g block)
    (hsum : g.latencySum ≤ limit) (hlimit : 1 ≤ limit) (hwords : limit < Word.count)
    (hspan : ¬g.Outreaches block limit) (now : Journaled σ) :
    ∃ needed last, recurrenceInterval component now = .ok needed last ∧ needed ≤ limit := by
  have hle : max (component.arcs.map (·.edge.latency)).sum 1 ≤ limit :=
    max_le ((sum_latency_component_le hmem).trans hsum) hlimit
  rcases recurrenceInterval_cases (σ := σ) (of_mem_recurrences hmem).1
      ((le_max_left _ 1).trans hle |>.trans_lt hwords) with
    ⟨needed, hneeded, hneededLe, _⟩ | ⟨hneeded, _⟩ | ⟨reached, _, hreached, hoverflow, _⟩
  · exact ⟨needed, now, hneeded now, hneededLe.trans hle⟩
  · obtain ⟨last, hneeded⟩ := hneeded now
    exact ⟨_, last, hneeded, hle⟩
  · exact absurd ((outreaches_of_component hg hmem hoverflow).mono (hreached.trans hle)) hspan

/-- The least interval is known where the latencies and the control units are within a word, and no
dependency spans too many slots at it. -/
theorem exists_compute_le (hg : g.Listed) (hcontrol : g.controlUnits.length ≤ limit)
    (hsum : g.latencySum ≤ limit) (hlimit : 1 ≤ limit) (hwords : limit < Word.count)
    (hspan : ¬g.Outreaches block limit) (now : Journaled σ) :
    ∃ bound last, compute g block now = .ok bound last ∧ bound.value ≤ limit := by
  have hbusiest : ∀ funcUnit : FuncUnit, (g.unitsOn block funcUnit).length ≤ limit :=
    fun funcUnit => (length_unitsOn_le_controlUnits hg block funcUnit).trans hcontrol
  rcases resourceBound_cases hg block with ⟨resource, hresource, hle⟩ | ⟨_, funcUnit, _, hmany⟩
  · obtain ⟨recurrence, middle, hrecurrence, hrecurrenceLe⟩ :
        ∃ recurrence middle, recurrenceBound g block now = .ok recurrence middle ∧
          recurrence ≤ limit := by
      rw [recurrenceBound_eq]
      exact exists_longest now (fun component hmem => exists_recurrenceInterval_le hg hmem hsum
        hlimit hwords hspan) (Nat.zero_le limit)
    obtain ⟨last, hcompute⟩ := exists_compute_eq_ok.mpr
      (show resourceBound g block = .ok (MinInterval.mk resource recurrence).resource ∧ _ from
        ⟨hresource, middle, hrecurrence⟩)
    exact ⟨_, last, hcompute, Nat.max_le.mpr
      ⟨Nat.max_le.mpr ⟨(hle limit).mpr fun funcUnit _ => hbusiest funcUnit, hrecurrenceLe⟩, hlimit⟩⟩
  · exact absurd (hmany.trans (hbusiest funcUnit)) (Nat.not_le.mpr hwords)

end MinInterval

namespace PipelineSearch

open SlotScheduling.Graph

variable {g : Graph} {block : BlockId} {entrySlot distance : Nat} {exit branch : UnitId}

section

variable (hg : g.Looping block entrySlot exit branch) (hsmall : g.IsSmall distance)

include hg hsmall

/-- The least interval meets all cycles, and is no more than what the ceiling leaves room for. -/
theorem exists_computeInterval {now : Journaled PipelineSearch}
    (hwidened : Widened 0 g now.state.graph) :
    ∃ last, computeInterval now = .ok ⟨⟩ last ∧
      last.state = { now.state with interval := last.state.interval } ∧
      1 ≤ last.state.interval ∧ last.state.interval ≤ g.allowance + 1 ∧
      ∀ {interval}, last.state.interval ≤ interval → g.MeetsCycles block interval := by
  have hofBlock := hwidened.toSimilar.ofBlock hg.toEnclosed
  have houtline := outline_eq_of_skeleton_eq hwidened.skeleton
  have hbundles : ∀ {user source}, now.state.graph.bundle? user source = g.bundle? user source :=
    hwidened.bundle?_eq hg
  have hsum : now.state.graph.latencySum ≤ g.latencySum :=
    latencySum_le hg.toTidy (hg.toTidy.of_skeleton_eq hwidened.skeleton) houtline
      fun hbundle hbundle' => by
        rw [hbundles, hbundle'] at hbundle
        rw [Option.some.inj hbundle]
  have hallowance : g.latencySum + g.controlUnits.length = g.allowance := rfl
  have hwords := hsmall.words
  have hroom : distance * (g.allowance + 1) ≤ 2 ^ 62 := by
    have hproduct := hsmall.room
    have hfactor : distance * (g.allowance + 1) ≤
        (distance + 1) * (g.allowance + 1) * (g.units.size + 1) := by
      rw [mul_assoc]
      exact Nat.mul_le_mul (Nat.le_succ _) (Nat.le_mul_of_pos_right _ (Nat.succ_pos _))
    omega
  have hcontrol := congrArg List.length (controlUnits_eq_of_outline_eq houtline)
  obtain ⟨bound, last, hcompute, hvalue⟩ :=
    MinInterval.exists_compute_le hofBlock.toListed (by omega) (by omega) (by omega) (by omega)
      (hwidened.not_outreaches hg.toEnclosed hsmall.distances hroom) now
  obtain ⟨_, middle, hrecurrence⟩ := MinInterval.exists_compute_eq_ok.mp ⟨last, hcompute⟩
  have hstate : last.state = now.state :=
    ((MinInterval.keeps_compute _ _).of_eq_ok hcompute : id last.state = id now.state)
  obtain ⟨journal, hrun⟩ : ∃ journal, computeInterval now = .ok ⟨⟩
      ⟨{ now.state with interval := bound.value }, journal⟩ := by
    obtain ⟨_, journal⟩ := last
    obtain rfl : _ = now.state := hstate
    rw [computeInterval, Step.current_bind, hofBlock.entryBlock]
    exact ⟨_, Step.bind_eq_ok.mpr ⟨_, _, hcompute, rfl⟩⟩
  refine ⟨_, hrun, rfl, Nat.le_max_right _ _, hvalue, fun {interval} hle cycle hcycle hspans => ?_⟩
  have hbound := MinInterval.sum_latency_le hofBlock.toListed hrecurrence
    (hwidened.isCycle hg hcycle) hspans
  refine hbound.trans (Nat.mul_le_mul_right _ (le_trans ?_ hle))
  exact (Nat.le_max_right _ _).trans (Nat.le_max_left _ _)

end

/-- A search starts on a loop whose first critical path has a schedule, with room above it. -/
structure Starts (g : Graph) (exit : UnitId) (search : PipelineSearch) : Prop where
  graph : search.graph = g
  interval : search.interval = 0
  path : search.criticalPathEnd ≤ g.latencySum
  ceiling : search.ceiling = search.criticalPathEnd + g.allowance + 1
  feasible : Feasible g exit 0 search.criticalPathEnd

theorem totalLatency_eq_ok (h : g.latencySum < Word.count) :
    totalLatency g = .ok g.latencySum :=
  Word.sum_eq_ok.mpr ⟨h, rfl⟩

/-- The earliest slots without an interval, and where the exit is among them. -/
theorem exists_earliest (hg : g.Looping block entrySlot exit branch) (hsmall : g.IsSmall distance)
    (hrestart : Restarted 0 g g) :
    ∃ sys placed slot, ControlSystem.build g { pipelining := true } = .ok sys ∧
      sys.earliest = .ok placed ∧ (placed.find? (·.1 = exit)).map Prod.snd = some slot ∧
      g.entrySlot ≤ slot ∧ slot ≤ g.entrySlot + g.latencySum ∧
      Feasible g exit 0 (slot - g.entrySlot) := by
  have hwords := hsmall.words
  have hallowance : g.latencySum + g.controlUnits.length = g.allowance := rfl
  have hbuildable : ControlSystem.Buildable g { pipelining := true } :=
    hrestart.buildable hg hsmall (Nat.zero_le _) rfl rfl (fun hlast => by cases hlast)
      fun horder => by cases horder
  obtain ⟨slots, hfits, hle⟩ := hg.exists_fits_zero
  have hadmits : ControlSystem.Admits g { pipelining := true } slots :=
    hrestart.admits_of_fits hg rfl rfl hfits (fun hlast => by cases hlast)
      (fun horder => by cases horder) (fun horder => by cases horder)
  obtain ⟨sys, hbuild, -⟩ := ControlSystem.exists_build hbuildable
  obtain ⟨placed, hplaced⟩ := ControlSystem.exists_earliest_of_admits hbuildable hbuild hadmits
    fun {id} hid => by
      have := hfits.free hid
      have := hle hid
      omega
  obtain ⟨g', hplace⟩ := ControlSystem.exists_placeAll hbuildable.toListed hbuild hplaced
  have hsolves := ControlSystem.solves_of_earliest hbuildable hbuild hplaced hplace
  have hfits' := hrestart.fits_of_admits hg rfl rfl hsolves.admits
  have hle' : ∀ {id}, g.IsControl id → g'.slotAt id ≤ g.entrySlot + g.latencySum :=
    fun hid => (hsolves.least hadmits hid).trans (hle hid)
  -- The exit is among the units that are placed.
  obtain ⟨base, hdescribes⟩ := ControlSystem.exists_describes hbuild
  have hids := (ConstraintSystem.earliest_eq_ok
    (hdescribes.grows.closed hdescribes.free.closed) hplaced).2.1
  rw [hdescribes.grows.keepsUnits] at hids
  have hexit : exit ∈ base.unknowns :=
    hdescribes.free.mem (hg.control.mpr hg.exitControl)
      (hrestart.cleared hg.exitControl hg.entryRoot_ne.1.symm fun hpos => absurd hpos (lt_irrefl _))
  obtain ⟨⟨_, slot⟩, hfind⟩ : ∃ placement, placed.find? (·.1 = exit) = some placement := by
    rw [← Option.isSome_iff_exists, List.find?_isSome]
    obtain ⟨placement, hmem, hfirst⟩ := List.mem_map.mp (hids ▸ Array.mem_toList_iff.mpr hexit)
    exact ⟨placement, hmem, decide_eq_true hfirst⟩
  have hslot : g'.slot? exit = some slot := by
    obtain rfl : _ = exit := by simpa using List.find?_some hfind
    exact slot?_placeAll (hids ▸ hdescribes.free.nodup) (List.mem_of_find?_eq_some hfind) hplace
  have hat := Graph.slotAt_eq hslot
  have hlow := hfits'.free hg.exitControl
  have hhigh := hle' hg.exitControl
  refine ⟨sys, placed, slot, hbuild, hplaced, by rw [hfind]; rfl, by omega, by omega, g'.slotAt,
    hfits', by omega, fun {id} hid => ?_⟩
  have := hle' hid
  omega

/-- A search for a loop with small numbers starts. -/
theorem exists_start {now : Journaled Graph} (hg : Enclosed block entrySlot exit now.state)
    (hsmall : now.state.IsSmall distance)
    (hlooping : ∀ {g}, Restarted 0 now.state g → g.Looping block entrySlot exit branch) :
    ∃ search last, start now = .ok search last ∧ Restarted 0 now.state last.state ∧
      Starts last.state exit search := by
  have hwords := hsmall.words
  obtain ⟨reset, hreset, hrestart⟩ := exists_resetControl hg (.refl now.state)
    (fun hpos => absurd hpos (Nat.lt_irrefl 0)) fun hpos => absurd hpos (Nat.lt_irrefl 0)
  have hg' := hlooping hrestart
  have hsmall' := hrestart.isSmall hg hsmall
  have hwords' := hsmall'.words
  have hallowance : reset.state.latencySum + reset.state.controlUnits.length =
    reset.state.allowance := rfl
  obtain ⟨sys, placed, slot, hbuild, hplaced, hslot, hlow, hhigh, hfeasible⟩ :=
    exists_earliest hg' hsmall' hrestart.self
  have hpipelined : now.state.isPipelined = true := by
    have hloop := hg'.loops
    rw [show reset.state.loopOp = now.state.loopOp from
      eq_of_skeleton_eq (·.loopOp) hrestart.skeleton fun _ => rfl] at hloop
    rw [isPipelined, hloop]
    rfl
  have hsolve : sys.earliest.orMalformed = .ok placed := by
    rw [hplaced]
    rfl
  obtain ⟨path, hpath⟩ : ∃ path, path = slot - reset.state.entrySlot := ⟨_, rfl⟩
  rw [← hpath] at hfeasible
  have hadd : ∀ {a b : Nat}, a + b < Word.count → Word.add a b = .ok (a + b) :=
    fun hlt => Word.add_eq_ok.mpr ⟨hlt, rfl⟩
  obtain ⟨journal, hrun⟩ : ∃ journal, start now =
      .ok ⟨reset.state, 0, path, path + reset.state.allowance + 1⟩ ⟨reset.state, journal⟩ := by
    rw [start, Step.current_bind]
    simp only [hpipelined, hg.exitRoot]
    rw [if_neg (by decide), Step.bind_of_eq_ok hreset, Step.current_bind,
      Step.lift_bind_of_eq_ok hbuild, Step.lift_bind_of_eq_ok hsolve,
      Step.lift_bind_of_eq_ok (totalLatency_eq_ok (by omega))]
    simp only [hslot, Option.getD_some, ← hpath]
    rw [Step.lift_bind_of_eq_ok (hadd (by omega)), Step.lift_bind_of_eq_ok (hadd (by omega)),
      Step.lift_bind_of_eq_ok (hadd (by omega)), add_assoc path, hallowance]
    exact ⟨_, rfl⟩
  exact ⟨_, _, hrun, hrestart, rfl, rfl, show path ≤ reset.state.latencySum by omega, rfl,
    hfeasible⟩

end PipelineSearch

end SlotScheduling
