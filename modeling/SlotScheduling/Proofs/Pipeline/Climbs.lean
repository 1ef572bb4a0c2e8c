import SlotScheduling.Proofs.Difference.Potentials
import SlotScheduling.Proofs.Pipeline.Fitting
import SlotScheduling.Proofs.Pipeline.IntervalBounds

/-!
# Climbing over the units of a loop

Values for all units of a loop, those of the data path included, that grow along every dependency at
an interval, and along pairs of units that issue in an order.  Each value is reached from a
lower bound by climbing within one iteration, or else a whole interval is saved on the way.
-/

namespace SlotScheduling.Graph

open Arc

variable {g : Graph} {block : BlockId} {entrySlot interval : Nat} {source user first id : UnitId}
  {orders : UnitId → UnitId → Prop} {cap : UnitId → Nat} {offset length : Int} {walk : List Arc}
  {arc : Arc}

/-- What a unit asks another one for at an interval, if anything. -/
def asked? (g : Graph) (interval : Nat) (source user : UnitId) : Option Int :=
  (g.bundle? user source).bind fun bundle =>
    (bundle.edge.offset? (loopBounds interval).loopInterval).toOption.join

theorem asked?_eq_some (hg : g.OfBlock block entrySlot) :
    g.asked? interval source user = some offset ↔
      (loopBounds interval).Asks g source user offset := by
  rw [asks_iff hg rfl, asked?, Option.bind_eq_some_iff]
  refine exists_congr fun bundle => and_congr_right fun _ => ?_
  rcases bundle.edge.offset? (loopBounds interval).loopInterval with failure | offset?
  · simp [Except.toOption]
  · simp [Except.toOption]

open Classical in
/-- An arc for each dependency that counts at an interval, and one of weight one for each pair that
issues in order. -/
noncomputable def stepArcs (g : Graph) (interval : Nat) (orders : UnitId → UnitId → Prop) :
    List Arc :=
  (List.range g.units.size).flatMap fun source => (List.range g.units.size).flatMap fun user =>
    ((g.asked? interval source user).toList ++ if orders source user then [1] else []).map
      fun weight => ⟨source, user, weight⟩

theorem mem_stepArcs (hg : g.OfBlock block entrySlot) :
    arc ∈ g.stepArcs interval orders ↔
      (loopBounds interval).Asks g arc.source arc.target arc.weight ∨
        (arc.source < g.units.size ∧ arc.target < g.units.size ∧
          orders arc.source arc.target ∧ arc.weight = 1) := by
  have hmem : arc ∈ g.stepArcs interval orders ↔
      arc.source < g.units.size ∧ arc.target < g.units.size ∧
        (g.asked? interval arc.source arc.target = some arc.weight ∨
          orders arc.source arc.target ∧ arc.weight = 1) := by
    rcases arc with ⟨source, user, weight⟩
    simp only [stepArcs, List.mem_flatMap, List.mem_range, List.mem_map, List.mem_append,
      Option.mem_toList, List.mem_ite_nil_right, List.mem_singleton, Arc.mk.injEq]
    constructor
    · rintro ⟨_, hsource, _, huser, _, hweight, rfl, rfl, rfl⟩
      exact ⟨hsource, huser, hweight⟩
    · rintro ⟨hsource, huser, hweight⟩
      exact ⟨source, hsource, user, huser, weight, hweight, rfl, rfl, rfl⟩
  rw [hmem, asked?_eq_some hg]
  constructor
  · rintro ⟨hsource, huser, hasks | ⟨horder, hweight⟩⟩
    · exact Or.inl hasks
    · exact Or.inr ⟨hsource, huser, horder, hweight⟩
  · rintro (hasks | ⟨hsource, huser, horder, hweight⟩)
    · obtain ⟨unit, bundle, hunit, hdep, -⟩ := id hasks
      obtain ⟨producer, hproducer⟩ :=
        hg.toWellFormed.exists_source hunit (Table.mem_entries_of_get?_eq_some hdep)
      exact ⟨lt_size_of_getElem? hproducer, lt_size_of_getElem? hunit, Or.inl hasks⟩
    · exact ⟨hsource, huser, Or.inr ⟨horder, hweight⟩⟩

/-- Within one iteration, the user waits for the source. -/
def WaitsWithin (g : Graph) (source user : UnitId) : Prop :=
  ∃ bundle, g.bundle? user source = some bundle ∧ bundle.edge.distance = 0

/-- From the first unit one climbs within one iteration to another one, by that much. -/
inductive Climbs (g : Graph) (orders : UnitId → UnitId → Prop) (first : UnitId) :
    UnitId → Int → Prop
  | start : Climbs g orders first first 0
  | wait {source user : UnitId} {length : Int} {bundle : EdgeBundle}
      (hclimbs : Climbs g orders first source length)
      (hbundle : g.bundle? user source = some bundle) (hlocal : bundle.edge.distance = 0) :
      Climbs g orders first user (length + bundle.edge.latency)
  | turn {source user : UnitId} {length : Int} (hclimbs : Climbs g orders first source length)
      (horder : orders source user) : Climbs g orders first user (length + 1)

/-- No step into a unit climbs by more than its cap. -/
structure Caps (g : Graph) (orders : UnitId → UnitId → Prop) (cap : UnitId → Nat) : Prop where
  waits : ∀ {source user bundle}, g.bundle? user source = some bundle →
    bundle.edge.latency ≤ cap user
  turns : ∀ {source user}, orders source user → 1 ≤ cap user

/-- A step either stays within the iteration, or saves a whole interval. -/
theorem Caps.step_cases (hcaps : g.Caps orders cap) (hg : g.OfBlock block entrySlot)
    (hmem : arc ∈ g.stepArcs interval orders) :
    arc.target < g.units.size ∧ arc.weight ≤ cap arc.target ∧
      ((∃ bundle, g.bundle? arc.target arc.source = some bundle ∧ bundle.edge.distance = 0 ∧
          arc.weight = bundle.edge.latency) ∨
        (orders arc.source arc.target ∧ arc.weight = 1) ∨
        (0 < interval ∧ arc.weight + interval ≤ cap arc.target)) := by
  rcases (mem_stepArcs hg).mp hmem with hasks | ⟨-, htarget, horder, hweight⟩
  · obtain ⟨bundle, hbundle, hoffset, hspans⟩ := exists_bundle_of_asks hg hasks
    obtain ⟨unit, hunit, -⟩ := exists_of_bundle? hbundle
    have hle := hcaps.waits hbundle
    unfold DepEdge.offsetAt at hoffset
    refine ⟨lt_size_of_getElem? hunit, ?_, ?_⟩
    · have : (0 : Int) ≤ bundle.edge.distance * interval := by positivity
      omega
    · rcases Nat.eq_zero_or_pos bundle.edge.distance with hlocal | hcarried
      · refine Or.inl ⟨bundle, hbundle, hlocal, ?_⟩
        rw [hoffset, hlocal]
        simp
      · have hsaves : (interval : Int) ≤ bundle.edge.distance * interval :=
          le_mul_of_one_le_left (by positivity) (by exact_mod_cast hcarried)
        refine Or.inr (Or.inr ⟨hspans.resolve_left hcarried.ne', ?_⟩)
        omega
  · have hle := hcaps.turns horder
    exact ⟨htarget, by omega, Or.inr (Or.inl ⟨horder, hweight⟩)⟩

theorem within_stepArcs (hcaps : g.Caps orders cap) (hg : g.OfBlock block entrySlot) :
    Within g.units.size (g.stepArcs interval orders) := by
  intro arc hmem
  refine ⟨?_, (hcaps.step_cases hg hmem).1⟩
  rcases (mem_stepArcs hg).mp hmem with ⟨unit, bundle, hunit, hdep, -⟩ | ⟨hsource, -⟩
  · obtain ⟨producer, hproducer⟩ :=
      hg.toWellFormed.exists_source hunit (Table.mem_entries_of_get?_eq_some hdep)
    exact lt_size_of_getElem? hproducer
  · exact hsource

/-- A walk that saves no interval climbs within one iteration. -/
theorem climbs_of_isWalk (hcaps : g.Caps orders cap) (hg : g.OfBlock block entrySlot)
    {middle last : UnitId} (hclimbs : Climbs g orders first middle length)
    (hwalk : IsWalk (g.stepArcs interval orders) middle walk last)
    (hstays : ∀ arc ∈ walk, ¬(0 < interval ∧ arc.weight + interval ≤ cap arc.target)) :
    Climbs g orders first last (length + totalWeight walk) := by
  induction walk generalizing middle length with
  | nil =>
      obtain rfl := hwalk
      simpa using hclimbs
  | cons arc rest ih =>
      obtain ⟨hmem, rfl, hrest⟩ := hwalk
      obtain ⟨hstay, hstays⟩ := List.forall_mem_cons.mp hstays
      rw [totalWeight_cons, ← add_assoc]
      refine ih ?_ hrest hstays
      obtain ⟨-, -, ⟨bundle, hbundle, hlocal, hweight⟩ | ⟨horder, hweight⟩ | hsaves⟩ :=
        hcaps.step_cases hg hmem
      · rw [hweight]
        exact hclimbs.wait hbundle hlocal
      · rw [hweight]
        exact hclimbs.turn horder
      · exact absurd hsaves hstay

/-- What a simple walk climbs is bounded by all caps together, and a whole interval less unless it
stays within the iteration. -/
theorem climbs_or_le (hcaps : g.Caps orders cap) (hg : g.OfBlock block entrySlot) {last : UnitId}
    (hwalk : IsWalk (g.stepArcs interval orders) first walk last) (hsimple : IsSimple walk) :
    totalWeight walk ≤ ∑ id ∈ Finset.range g.units.size, cap id ∧
      (Climbs g orders first last (totalWeight walk) ∨
        0 < interval ∧ totalWeight walk + interval ≤ ∑ id ∈ Finset.range g.units.size, cap id) := by
  have hcap : ∀ arc ∈ walk, arc.target < g.units.size ∧ arc.weight ≤ cap arc.target := by
    intro arc hmem
    obtain ⟨htarget, hle, -⟩ := hcaps.step_cases hg (hwalk.subset hmem)
    exact ⟨htarget, hle⟩
  refine ⟨hsimple.totalWeight_le hcap, ?_⟩
  by_cases hsaves : ∃ arc ∈ walk, 0 < interval ∧ arc.weight + interval ≤ cap arc.target
  · obtain ⟨arc, hmem, hpos, hsaved⟩ := hsaves
    exact Or.inr ⟨hpos, hsimple.totalWeight_le_sub hcap hmem hsaved⟩
  · refine Or.inl ?_
    have hclimbs := climbs_of_isWalk hcaps hg .start hwalk fun arc hmem hstay =>
      hsaves ⟨arc, hmem, hstay⟩
    rwa [zero_add] at hclimbs

/-- A key that grows with every step tells the ends of a climb apart. -/
theorem Climbs.lt_or_eq {α : Type} [Preorder α] {key : UnitId → α}
    (hwaits : ∀ {source user}, g.WaitsWithin source user → key source < key user)
    (horders : ∀ {source user}, orders source user → key source < key user)
    (h : Climbs g orders first id length) : key first < key id ∨ (first = id ∧ length = 0) := by
  have hstep : ∀ {source user : UnitId} {length : Int},
      key first < key source ∨ (first = source ∧ length = 0) → key source < key user →
      key first < key user := by
    rintro source user length (hlt | ⟨rfl, -⟩) hup
    · exact hlt.trans hup
    · exact hup
  induction h with
  | start => exact Or.inr ⟨rfl, rfl⟩
  | wait _ hbundle hlocal ih => exact Or.inl (hstep ih (hwaits ⟨_, hbundle, hlocal⟩))
  | turn _ horder ih => exact Or.inl (hstep ih (horders horder))

/-- No closed walk weighs anything where no climb within an iteration comes back and the interval
makes up for all caps. -/
theorem totalWeight_closed_le (hcaps : g.Caps orders cap) (hg : g.OfBlock block entrySlot)
    {α : Type} [Preorder α] {key : UnitId → α}
    (hwaits : ∀ {source user}, g.WaitsWithin source user → key source < key user)
    (horders : ∀ {source user}, orders source user → key source < key user)
    (hsum : 0 < interval → ∑ id ∈ Finset.range g.units.size, cap id ≤ interval) {node : Nat}
    (hwalk : IsWalk (g.stepArcs interval orders) node walk node) (hsimple : IsSimple walk) :
    totalWeight walk ≤ 0 := by
  obtain ⟨-, hclimbs | ⟨hpos, hsaved⟩⟩ := climbs_or_le hcaps hg hwalk hsimple
  · rcases hclimbs.lt_or_eq hwaits horders with hlt | ⟨-, hzero⟩
    · exact absurd hlt (lt_irrefl _)
    · exact hzero.le
  · have := hsum hpos
    omega

/-- Values for all units that grow with every step, and where each of them comes from. -/
structure Steady (g : Graph) (interval : Nat) (orders : UnitId → UnitId → Prop)
    (least : UnitId → Int) (total : Nat) (value : UnitId → Int) : Prop where
  asks : ∀ {source user offset}, (loopBounds interval).Asks g source user offset →
    value source + offset ≤ value user
  turns : ∀ {source user}, orders source user → value source + 1 ≤ value user
  above : ∀ {id}, id < g.units.size → least id ≤ value id
  roots : ∀ {id}, id < g.units.size → (∀ {source}, ¬g.DependsOn id source) →
    (∀ {source}, ¬orders source id) → value id = least id
  climbs : ∀ {id}, id < g.units.size → ∃ first < g.units.size, ∃ length,
    value id = least first + length ∧ length ≤ total ∧
      (Climbs g orders first id length ∨ 0 < interval ∧ length + interval ≤ total)

theorem exists_steady (hcaps : g.Caps orders cap) (hg : g.OfBlock block entrySlot)
    (interval : Nat)
    (hunits : ∀ {source user}, orders source user → source < g.units.size ∧ user < g.units.size)
    (hcycles : ∀ node cycle, IsWalk (g.stepArcs interval orders) node cycle node →
      IsSimple cycle → totalWeight cycle ≤ 0) (least : UnitId → Int) :
    ∃ value, Steady g interval orders least (∑ id ∈ Finset.range g.units.size, cap id) value := by
  obtain ⟨value, hvalue, habove, hwalks⟩ :=
    exists_potential_above (within_stepArcs hcaps hg) least hcycles
  refine ⟨value, fun {source user offset} hasks => ?_, fun {source user} horder => ?_,
    fun hid => habove _ hid, fun {id} hid hdeps horder => ?_, fun {id} hid => ?_⟩
  · exact hvalue ⟨source, user, offset⟩ ((mem_stepArcs hg).mpr (Or.inl hasks))
  · exact hvalue ⟨source, user, 1⟩ ((mem_stepArcs hg).mpr
      (Or.inr ⟨(hunits horder).1, (hunits horder).2, horder, rfl⟩))
  · obtain ⟨first, -, walk, hwalk, -, hweight⟩ := hwalks id hid
    rcases List.eq_nil_or_concat walk with rfl | ⟨before, arc, rfl⟩
    · obtain rfl : first = id := hwalk
      simpa using hweight
    · rw [List.concat_eq_append] at hwalk
      obtain ⟨_, _, hmem, _, htarget⟩ := isWalk_append.mp hwalk
      obtain rfl : arc.target = id := htarget
      rcases (mem_stepArcs hg).mp hmem with hasks | ⟨-, -, hturn, -⟩
      · exact absurd hasks.dependsOn hdeps
      · exact absurd hturn horder
  · obtain ⟨first, hfirst, walk, hwalk, hsimple, hweight⟩ := hwalks id hid
    obtain ⟨hle, hclimbs⟩ := climbs_or_le hcaps hg hwalk hsimple
    exact ⟨first, hfirst, _, hweight, by exact_mod_cast hle, by exact_mod_cast hclimbs⟩

/-! ## Cycles that an interval meets -/

/-- The interval makes up for the latencies on every cycle of dependencies that spans iterations. -/
def MeetsCycles (g : Graph) (block : BlockId) (interval : Nat) : Prop :=
  ∀ cycle, g.IsCycle block cycle → 1 ≤ (cycle.map (·.2.distance)).sum →
    (cycle.map (·.2.latency)).sum ≤ interval * (cycle.map (·.2.distance)).sum

theorem linksWithin_of_bundle? (hg : g.OfBlock block entrySlot) {bundle : EdgeBundle}
    (hbundle : g.bundle? user source = some bundle) :
    g.LinksWithin block source user bundle.edge := by
  obtain ⟨unit, hunit, hdep⟩ := exists_of_bundle? hbundle
  have hmem := Table.mem_entries_of_get?_eq_some hdep
  obtain ⟨producer, hproducer⟩ := hg.toWellFormed.exists_source hunit hmem
  exact ⟨producer, unit, bundle, hproducer, (hg.units hproducer).block, hunit,
    (hg.units hunit).block, hmem, rfl⟩

/-- A walk over dependencies is a route, and weighs what an interval leaves of its latencies. -/
theorem exists_route (hg : g.OfBlock block entrySlot) {last : UnitId}
    (hwalk : IsWalk (g.stepArcs interval fun _ _ => False) first walk last) :
    ∃ route, g.IsRoute block first route last ∧
      route.map Prod.fst = walk.map (·.target) ∧
      totalWeight walk = (route.map (·.2.latency)).sum -
        (route.map (·.2.distance)).sum * interval ∧
      ((∀ arc ∈ walk, g.WaitsWithin arc.source arc.target) ∨
        1 ≤ (route.map (·.2.distance)).sum) := by
  induction walk generalizing first with
  | nil => exact ⟨[], hwalk, rfl, by simp, by simp⟩
  | cons arc rest ih =>
      obtain ⟨hmem, rfl, hrest⟩ := hwalk
      obtain ⟨route, hroute, htargets, hweight, hspans⟩ := ih hrest
      have hasks := ((mem_stepArcs hg).mp hmem).resolve_right fun hturn => hturn.2.2.1
      obtain ⟨bundle, hbundle, hoffset, -⟩ := exists_bundle_of_asks hg hasks
      refine ⟨(arc.target, bundle.edge) :: route,
        ⟨linksWithin_of_bundle? hg hbundle, hroute⟩, by simp [htargets], ?_, ?_⟩
      · rw [totalWeight_cons, hoffset, hweight, DepEdge.offsetAt]
        simp only [List.map_cons, List.sum_cons]
        push_cast
        ring
      · simp only [List.forall_mem_cons, List.map_cons, List.sum_cons]
        rcases Nat.eq_zero_or_pos bundle.edge.distance with hlocal | hcarried
        · rcases hspans with hspans | hspans
          · exact Or.inl ⟨⟨bundle, hbundle, hlocal⟩, hspans⟩
          · exact Or.inr (by omega)
        · exact Or.inr (by omega)

/-- No closed walk weighs anything at an interval that meets all cycles. -/
theorem totalWeight_closed_le_of_meets (hg : g.OfBlock block entrySlot)
    (hforward : ∀ {source user}, g.WaitsWithin source user → source < user)
    (hmeets : g.MeetsCycles block interval) {node : Nat}
    (hwalk : IsWalk (g.stepArcs interval fun _ _ => False) node walk node)
    (hsimple : IsSimple walk) : totalWeight walk ≤ 0 := by
  obtain ⟨route, hroute, htargets, hweight, hspans⟩ := exists_route hg hwalk
  rcases hspans with hlocal | hspans
  · by_cases hempty : walk = []
    · simp [hempty]
    · have hup : ∀ arc ∈ walk, id arc.source < id arc.target :=
        fun arc harc => hforward (hlocal arc harc)
      exact (hwalk.not_closed hempty hup).elim
  · have hcycle : g.IsCycle block route := ⟨node, hroute, htargets ▸ hsimple⟩
    have hle := hmeets route hcycle hspans
    rw [hweight, mul_comm]
    have hle := Int.ofNat_le.mpr hle
    push_cast at hle ⊢
    omega

end SlotScheduling.Graph
