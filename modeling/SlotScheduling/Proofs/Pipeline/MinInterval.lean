import SlotScheduling.Pipeline.MinInterval
import SlotScheduling.Proofs.Pipeline.Recurrence
import SlotScheduling.Proofs.Reachable

/-!
# The least interval is a lower bound

Slots that keep every dependency of a block, and keep apart the control units that
share a function unit, exist for no interval below the bound that is computed.  The
control units on one function unit take different slots modulo the interval, so
that there are no more of them than that; and the slots leave no recurrence with a
positive cycle.  The computation counts units as words and the slots that a
dependency spans as offsets, and it faults where such a number leaves its range.
-/

namespace SlotScheduling

namespace Graph

variable {g : Graph} {block : BlockId} {interval : Nat} {slot : UnitId → Int}

def unitsOf (g : Graph) (block : BlockId) : List ScheduleUnit :=
  g.units.toList.filter (·.block = block)

/-- The control units of a block that are bound to a function unit. -/
def unitsOn (g : Graph) (block : BlockId) (funcUnit : FuncUnit) : List ScheduleUnit :=
  (g.unitsOf block).filter fun unit => unit.control ∧ unit.funcUnit = funcUnit

/-- A dependency between two units of a block. -/
def LinksWithin (g : Graph) (block : BlockId) (source target : UnitId) (edge : DepEdge) : Prop :=
  ∃ producer consumer bundle, g.units[source]? = some producer ∧ producer.block = block ∧
    g.units[target]? = some consumer ∧ consumer.block = block ∧
    (source, bundle) ∈ consumer.deps.entries ∧ bundle.edge = edge

/-- At this interval, some dependency within the block spans more slots than an offset can count. -/
def Outreaches (g : Graph) (block : BlockId) (interval : Nat) : Prop :=
  ∃ source target edge, g.LinksWithin block source target edge ∧ edge.Outreaches interval

theorem Outreaches.mono {longer : Nat} (h : g.Outreaches block interval)
    (hle : interval ≤ longer) : g.Outreaches block longer := by
  obtain ⟨source, target, edge, hlinks, hspan⟩ := h
  exact ⟨source, target, edge, hlinks, hspan.mono hle⟩

theorem Listed.nodup_units (hg : g.Listed) : (g.units.toList.map (·.id)).Nodup := by
  have hids : g.units.toList.map (·.id) = List.range g.units.size := by
    refine List.ext_getElem (by simp) fun id hid hid' => ?_
    rw [List.length_map, Array.length_toList] at hid
    rw [List.getElem_map, List.getElem_range, Array.getElem_toList]
    exact hg.positions (Array.getElem?_eq_getElem hid)
  rw [hids]
  exact List.nodup_range

theorem Listed.nodup_unitsOf (hg : g.Listed) (block : BlockId) :
    ((g.unitsOf block).map (·.id)).Nodup :=
  hg.nodup_units.sublist (List.filter_sublist.map _)

theorem mem_units {unit : ScheduleUnit} :
    unit ∈ g.units.toList ↔ ∃ id : UnitId, g.units[id]? = some unit := by
  rw [Array.mem_toList_iff, Array.mem_iff_getElem?]

theorem mem_unitsOf (hg : g.Listed) {unit : ScheduleUnit} :
    unit ∈ g.unitsOf block ↔ g.units[unit.id]? = some unit ∧ unit.block = block := by
  rw [unitsOf, List.mem_filter, mem_units, decide_eq_true_eq]
  refine and_congr_left fun _ => ⟨?_, fun hunit => ⟨_, hunit⟩⟩
  rintro ⟨id, hunit⟩
  rwa [hg.positions hunit]

/-- The control units of a graph, in the order of their list. -/
theorem exists_controlUnits (hg : g.Listed) :
    ∃ units, g.controlUnits.mapM g.unit = .ok units ∧
      units.Perm (g.units.toList.filter (·.control)) := by
  have hlisted : ∀ id ∈ g.controlUnits, ∃ unit, g.unit id = .ok unit := by
    intro id hid
    obtain ⟨unit, hunit, _⟩ := hg.control.mp hid
    exact ⟨unit, unit_eq_ok.mpr hunit⟩
  obtain ⟨units, hunits⟩ := Checked.exists_mapM_eq_ok hlisted
  have hids : units.map (·.id) = g.controlUnits := by
    have hpositions : List.Forall₂ Eq (units.map (·.id)) g.controlUnits :=
      List.forall₂_map_left_iff.mpr <|
        (Checked.mapM_eq_ok hunits).flip.imp fun _ _ hunit => hg.positions (unit_eq_ok.mp hunit)
    rwa [List.forall₂_eq_eq_eq] at hpositions
  refine ⟨units, hunits, (List.perm_ext_iff_of_nodup ?_ ?_).mpr fun unit => ?_⟩
  · exact List.Nodup.of_map (·.id) (hids ▸ hg.controlNodup)
  · exact (List.Nodup.of_map (·.id) hg.nodup_units).filter _
  · rw [List.mem_filter, mem_units]
    constructor
    · intro hmem
      obtain ⟨id, hid, hunit⟩ := Checked.exists_of_mem_mapM hunits hmem
      obtain ⟨unit', hunit', hcontrol⟩ := hg.control.mp hid
      rw [unit_eq_ok, hunit'] at hunit
      cases hunit
      exact ⟨⟨id, hunit'⟩, hcontrol⟩
    · rintro ⟨⟨id, hunit⟩, hcontrol⟩
      obtain ⟨unit', hmem, hunit'⟩ :=
        Checked.exists_mem_mapM hunits (hg.control.mpr ⟨unit, hunit, hcontrol⟩)
      rw [unit_eq_ok, hunit] at hunit'
      cases hunit'
      exact hmem

/-- The arcs among the units of a block are its dependencies. -/
theorem mem_loopArcs (hg : g.Listed) {arc : LoopArc} :
    arc ∈ LoopArc.ofUnits (g.unitsOf block) ↔
      ∃ producer consumer, (g.unitsOf block)[arc.source]? = some producer ∧
        (g.unitsOf block)[arc.target]? = some consumer ∧
        g.LinksWithin block producer.id consumer.id arc.edge := by
  rw [LoopArc.mem_ofUnits (hg.nodup_unitsOf block)]
  refine exists₂_congr fun producer consumer => and_congr_right fun hproducer =>
    and_congr_right fun hconsumer => ?_
  obtain ⟨hproducer, hblock⟩ := (mem_unitsOf hg).mp (List.mem_of_getElem? hproducer)
  obtain ⟨hconsumer, hblock'⟩ := (mem_unitsOf hg).mp (List.mem_of_getElem? hconsumer)
  constructor
  · rintro ⟨bundle, hmem, hedge⟩
    exact ⟨producer, consumer, bundle, hproducer, hblock, hconsumer, hblock', hmem, hedge⟩
  · rintro ⟨_, consumer', bundle, _, _, hconsumer', _, hmem, hedge⟩
    obtain rfl := Option.some.inj (hconsumer.symm.trans hconsumer')
    exact ⟨bundle, hmem, hedge⟩

end Graph

namespace MinInterval

open SlotScheduling.Graph

variable {σ : Type} {g : Graph} {block : BlockId} {interval : Nat} {slot : UnitId → Int}
  {component : Component}

/-! ## Function units -/

theorem foldl_max_le {counts : List Nat} {first limit : Nat} :
    counts.foldl max first ≤ limit ↔ first ≤ limit ∧ ∀ count ∈ counts, count ≤ limit := by
  induction counts generalizing first with
  | nil => simp
  | cons count rest ih => simp [ih, and_assoc]

/-- A function unit is listed once for each control unit of the block that is bound to it. -/
theorem exists_sharedFuncUnits (hg : g.Listed) (block : BlockId) :
    ∃ shared, sharedFuncUnits g block = .ok shared ∧
      (∀ funcUnit ∈ shared, funcUnit.isTrivial = false) ∧
      ∀ funcUnit : FuncUnit, funcUnit.isTrivial = false →
        shared.count funcUnit = (g.unitsOn block funcUnit).length := by
  obtain ⟨units, hunits, hperm⟩ := exists_controlUnits hg
  refine ⟨_, by rw [sharedFuncUnits, hunits]; rfl, fun funcUnit hmem => ?_,
    fun funcUnit hshared => ?_⟩
  · obtain ⟨unit, hunit, rfl⟩ := List.mem_map.mp hmem
    exact (of_decide_eq_true (List.mem_filter.mp hunit).2).2
  · rw [List.count, List.countP_map, List.countP_filter, hperm.countP_eq, List.countP_filter,
      unitsOn, unitsOf, ← List.countP_eq_length_filter, List.countP_filter]
    refine List.countP_congr fun unit _ => ?_
    simp only [Function.comp_apply, Bool.and_eq_true, beq_iff_eq, decide_eq_true_eq]
    constructor
    · rintro ⟨⟨hfuncUnit, hblock, _⟩, hcontrol⟩
      exact ⟨⟨hcontrol, hfuncUnit⟩, hblock⟩
    · rintro ⟨⟨hcontrol, rfl⟩, hblock⟩
      exact ⟨⟨rfl, hblock, hshared⟩, hcontrol⟩

/-- The bound of the function units is the number of control units on the busiest one, if that is a
word. -/
theorem resourceBound_cases (hg : g.Listed) (block : BlockId) :
    (∃ resource, resourceBound g block = .ok resource ∧ ∀ limit, resource ≤ limit ↔
      ∀ funcUnit : FuncUnit, funcUnit.isTrivial = false →
        (g.unitsOn block funcUnit).length ≤ limit) ∨
    (resourceBound g block = faulty .overflow ∧ ∃ funcUnit : FuncUnit,
      funcUnit.isTrivial = false ∧ Word.count ≤ (g.unitsOn block funcUnit).length) := by
  obtain ⟨shared, hshared, hlisted, hcount⟩ := exists_sharedFuncUnits hg block
  have hbound : resourceBound g block =
      (shared.mapM fun funcUnit => Word.check (shared.count funcUnit)) >>=
        fun counts => .ok (counts.foldl max 0) := by
    rw [resourceBound, hshared]
    rfl
  cases hchecks : shared.mapM fun funcUnit => Word.check (shared.count funcUnit) with
  | error failure =>
      obtain ⟨funcUnit, hmem, hcheck⟩ := Checked.mapM_eq_error hchecks
      obtain ⟨hmany, rfl⟩ := Word.check_eq_error.mp hcheck
      refine .inr ⟨by rw [hbound, hchecks]; rfl, funcUnit, hlisted funcUnit hmem, ?_⟩
      rwa [← hcount funcUnit (hlisted funcUnit hmem)]
  | ok counts =>
      have hcounts : List.Forall₂ Eq (shared.map fun funcUnit => shared.count funcUnit) counts :=
        List.forall₂_map_left_iff.mpr <| (Checked.mapM_eq_ok hchecks).imp fun _ _ hcheck =>
          (Word.check_eq_ok.mp hcheck).2.symm
      rw [List.forall₂_eq_eq_eq] at hcounts
      refine .inl ⟨_, by rw [hbound, hchecks]; rfl, fun limit => ?_⟩
      rw [foldl_max_le, ← hcounts, List.forall_mem_map]
      constructor
      · rintro ⟨_, hle⟩ funcUnit hnontrivial
        by_cases hmem : funcUnit ∈ shared
        · exact hcount funcUnit hnontrivial ▸ hle funcUnit hmem
        · rw [← hcount funcUnit hnontrivial, List.count_eq_zero_of_not_mem hmem]
          exact Nat.zero_le limit
      · intro hle
        exact ⟨Nat.zero_le limit, fun funcUnit hmem =>
          hcount funcUnit (hlisted funcUnit hmem) ▸ hle funcUnit (hlisted funcUnit hmem)⟩

theorem resourceBound_eq_ok (hg : g.Listed) {resource limit : Nat}
    (h : resourceBound g block = .ok resource) : resource ≤ limit ↔
      ∀ funcUnit : FuncUnit, funcUnit.isTrivial = false →
        (g.unitsOn block funcUnit).length ≤ limit := by
  rcases resourceBound_cases hg block with ⟨resource', hresource, hle⟩ | ⟨hfault, _⟩
  · rw [hresource] at h
    cases h
    exact hle limit
  · rw [hfault] at h
    cases h

theorem recurrences_eq (g : Graph) (block : BlockId) :
    recurrences g block =
      (Component.all (g.unitsOf block).length (LoopArc.ofUnits (g.unitsOf block))).filter
        (·.isRecurrence) :=
  rfl

theorem of_mem_recurrences (h : component ∈ recurrences g block) :
    component.Closed ∧ component.arcs ⊆ LoopArc.ofUnits (g.unitsOf block) := by
  rw [recurrences_eq] at h
  obtain ⟨node, _, rfl⟩ := List.mem_map.mp (List.mem_filter.mp h).1
  exact ⟨Component.closed_ofNode _ _ _ node, fun arc harc => (List.mem_filter.mp harc).1⟩

theorem outreaches_of_component (hg : g.Listed) (h : component ∈ recurrences g block)
    (hspan : component.Outreaches interval) : g.Outreaches block interval := by
  obtain ⟨arc, harc, hspan⟩ := hspan
  obtain ⟨producer, consumer, _, _, hlinks⟩ := (mem_loopArcs hg).mp ((of_mem_recurrences h).2 harc)
  exact ⟨producer.id, consumer.id, arc.edge, hlinks, hspan⟩

/-- A recurrence needs the first interval that suits it, or all its latencies together if none of
these does.  Its interval stays unknown if an arc spans too many slots before. -/
theorem recurrenceInterval_cases (hclosed : component.Closed)
    (hwords : (component.arcs.map (·.edge.latency)).sum < Word.count) :
    (∃ needed, (∀ now : Journaled σ, recurrenceInterval component now = .ok needed now) ∧
      needed ≤ max (component.arcs.map (·.edge.latency)).sum 1 ∧
      IsLeast {interval | 1 ≤ interval ∧ component.Suits interval} needed) ∨
    ((∀ now : Journaled σ, ∃ last, recurrenceInterval component now =
        .ok (max (component.arcs.map (·.edge.latency)).sum 1) last) ∧
      ∀ interval, 1 ≤ interval → interval ≤ max (component.arcs.map (·.edge.latency)).sum 1 →
        ¬component.Suits interval) ∨
    (∃ reached,
      (∀ now : Journaled σ, recurrenceInterval component now = .error (.fault .overflow) now) ∧
      reached ≤ max (component.arcs.map (·.edge.latency)).sum 1 ∧ component.Outreaches reached ∧
      ∀ interval, 1 ≤ interval → interval < reached → ¬component.Suits interval) := by
  have hbound := Component.intervalBound_eq_ok.mpr ⟨hwords, rfl⟩
  rcases Component.firstInterval_cases hclosed hwords
      (max (component.arcs.map (·.edge.latency)).sum 1) 1 with
    ⟨found, hsearch, hlast, hleast⟩ | ⟨hsearch, hall⟩ | ⟨reached, hsearch, _, hlast, hspan, hall⟩
  · refine .inl ⟨found, fun now => ?_, by omega, hleast⟩
    exact Step.lift_bind_eq_ok.mpr ⟨_, hbound, Step.lift_bind_eq_ok.mpr ⟨_, hsearch, rfl⟩⟩
  · exact .inr (.inl ⟨fun now => ⟨_, Step.lift_bind_eq_ok.mpr ⟨_, hbound,
      Step.lift_bind_eq_ok.mpr ⟨_, hsearch, rfl⟩⟩⟩,
      fun interval hone hle => hall interval hone (by omega)⟩)
  · refine .inr (.inr ⟨reached, fun now => ?_, by omega, hspan, hall⟩)
    refine Step.bind_eq_error.mpr (.inr ⟨_, now, Step.lift_eq_ok.mpr ⟨hbound, rfl⟩, ?_⟩)
    exact Step.bind_eq_error.mpr (.inl (Step.lift_eq_error.mpr ⟨hsearch, rfl⟩))

/-- The longest interval that recurrences need, and no less than a given one. -/
def longest (components : List Component) (least : Nat) : Step σ Nat :=
  components.foldlM (fun largest component =>
    return max largest (← recurrenceInterval component)) least

theorem recurrenceBound_eq (g : Graph) (block : BlockId) :
    recurrenceBound g block = (longest (recurrences g block) 0 : Step σ Nat) :=
  rfl

theorem longest_cons (component : Component) (rest : List Component) (least : Nat) :
    longest (component :: rest) least = (do
      let needed ← recurrenceInterval component
      longest rest (max least needed) : Step σ Nat) := by
  simp [longest]

/-- The longest interval is bounded as the others are, and unknown only if one of them is for a
reason of its own. -/
theorem longest_cases {cause : Prop} {components : List Component} {least : Nat}
    (now : Journaled σ)
    (hcomponents : ∀ component ∈ components, ∀ now : Journaled σ,
      (∃ needed last, recurrenceInterval component now = .ok needed last ∧ needed ≤ interval) ∨
        (∃ last, recurrenceInterval component now = .error (.fault .overflow) last) ∧ cause)
    (hleast : least ≤ interval) :
    (∃ bound last, longest components least now = .ok bound last ∧ bound ≤ interval) ∨
      (∃ last, longest components least now = .error (.fault .overflow) last) ∧ cause := by
  induction components generalizing least now with
  | nil => exact .inl ⟨least, now, rfl, hleast⟩
  | cons component rest ih =>
      rw [List.forall_mem_cons] at hcomponents
      rw [longest_cons]
      rcases hcomponents.1 now with ⟨needed, middle, hneeded, hle⟩ | ⟨⟨last, hfault⟩, hcause⟩
      · rw [Step.bind_of_eq_ok hneeded]
        exact ih middle hcomponents.2 (Nat.max_le.mpr ⟨hleast, hle⟩)
      · exact .inr ⟨⟨last, Step.bind_eq_error.mpr (.inl hfault)⟩, hcause⟩

theorem exists_longest {components : List Component} {least : Nat} (now : Journaled σ)
    (hcomponents : ∀ component ∈ components, ∀ now : Journaled σ, ∃ needed last,
      recurrenceInterval component now = .ok needed last ∧ needed ≤ interval)
    (hleast : least ≤ interval) :
    ∃ bound last, longest components least now = .ok bound last ∧ bound ≤ interval :=
  (longest_cases now (fun component hmem now => .inl (hcomponents component hmem now))
    hleast).resolve_right fun h => h.2

theorem exists_compute_eq_ok {bound : MinInterval} {now : Journaled σ} :
    (∃ last, compute g block now = .ok bound last) ↔
      resourceBound g block = .ok bound.resource ∧
        ∃ middle, recurrenceBound g block now = .ok bound.recurrence middle := by
  simp only [compute, Step.lift_bind_eq_ok]
  constructor
  · rintro ⟨last, resource, hresource, h⟩
    obtain ⟨recurrence, middle, hrecurrence, h⟩ := Step.bind_eq_ok.mp h
    obtain ⟨rfl, _⟩ := Step.pure_eq_ok.mp (Step.note_bind _ _ _ ▸ h)
    exact ⟨hresource, middle, hrecurrence⟩
  · rintro ⟨hresource, middle, hrecurrence⟩
    exact ⟨_, bound.resource, hresource,
      Step.bind_eq_ok.mpr ⟨bound.recurrence, middle, hrecurrence, rfl⟩⟩

end MinInterval

end SlotScheduling
