import SlotScheduling.Proofs.Difference.Extremes
import SlotScheduling.Proofs.Graph.Tidy
import SlotScheduling.Proofs.Placement.DataPath

/-!
# Assignments that fit around the control path

What is asked of the data path is said without a system here: values for the units
that do not dangle, which fit the dependencies that they are part of and lie within
the blocks of the units.  The system of the data path has just these assignments for
solutions, and none of its constraints is so strong that its solver would have to
round a slot.
-/

namespace SlotScheduling

/-- The least gap that an edge asks for between the slots of its ends, if the interval of
its block decides it. -/
def DepEdge.minGap? (edge : DepEdge) (interval : Option Nat) : Option Int :=
  if edge.distance = 0 then some edge.latency else interval.map edge.offsetAt

/-- The latency of the edge is a word, and with fixed timing its ends are of one iteration. -/
structure DepEdge.InRange (edge : DepEdge) : Prop where
  latency : edge.latency < Word.count
  fixed : edge.isFixedTiming = true → edge.distance = 0

instance (edge : DepEdge) : Decidable edge.InRange :=
  decidable_of_iff (edge.latency < Word.count ∧ (edge.isFixedTiming = true → edge.distance = 0))
    ⟨fun h => ⟨h.1, h.2⟩, fun h => ⟨h.latency, h.fixed⟩⟩

namespace DepEdge

variable {edge : DepEdge} {interval : Option Nat} {offset : Int}

theorem offset?_eq_minGap? {offset? : Option Int} (h : edge.offset? interval = .ok offset?) :
    offset? = edge.minGap? interval := by
  unfold minGap?
  by_cases hdistance : edge.distance = 0
  · rw [offset?_of_distance_eq_zero hdistance] at h
    cases h
    rw [if_pos hdistance]
  · rw [if_neg hdistance]
    cases interval with
    | none =>
        have hcarried : edge.isLoopCarried = true := by
          simpa [isLoopCarried] using Nat.pos_of_ne_zero hdistance
        rw [DepEdge.offset?, if_pos hcarried] at h
        cases h
        rfl
    | some interval => exact edge.offset?_eq_offsetAt h

theorem InRange.bounds (hrange : edge.InRange) (h : edge.minGap? interval = some offset) :
    offset < Word.count ∧ (edge.isFixedTiming = true → 0 ≤ offset) := by
  have hlatency := hrange.latency
  unfold minGap? at h
  split at h
  · cases h
    exact ⟨by omega, fun _ => Int.natCast_nonneg _⟩
  next hdistance =>
    obtain ⟨known, _, rfl⟩ := Option.map_eq_some_iff.mp h
    refine ⟨?_, fun hfixed => absurd (hrange.fixed hfixed) hdistance⟩
    have hspan : (0 : Int) ≤ (edge.distance : Int) * (known : Int) := by positivity
    unfold offsetAt
    omega

end DepEdge

/-- What the term adds to its node is a slot. -/
def Term.IsSlot (term : Term) : Prop := 0 ≤ term.shift ∧ term.shift < Word.count

namespace ConstraintSystem

variable {sys sys' : ConstraintSystem} {target source term : Term} {g : Graph}

theorem light_addGeq {weight : Int} (hlight : Arc.Light sys.arcs)
    (h : sys.addGeq target source weight = .ok sys')
    (hweight : weight + source.shift - target.shift ≤ 2 ^ 53 - Word.count) :
    Arc.Light sys'.arcs := by
  rcases addGeq_cases h with ⟨_, _, rfl⟩ | ⟨_, rfl⟩
  · exact hlight
  · exact List.forall_mem_cons.mpr ⟨hweight, hlight⟩

theorem light_addEdge {edge : DepEdge} {interval : Option Nat} {offset : Int}
    (hlight : Arc.Light sys.arcs) (hrange : edge.InRange)
    (hoffset : edge.minGap? interval = some offset) (htarget : target.IsSlot)
    (hsource : source.IsSlot) (h : sys.addEdge target source edge offset = .ok sys') :
    Arc.Light sys'.arcs := by
  obtain ⟨hlt, hfixed⟩ := hrange.bounds hoffset
  obtain ⟨_, _⟩ := htarget
  obtain ⟨_, _⟩ := hsource
  unfold Word.count at *
  unfold addEdge at h
  split at h
  next hflag =>
    have hnonneg := hfixed hflag
    obtain ⟨middle, hmiddle, h⟩ := addEq_eq_ok h
    have hlight := light_addGeq hlight hmiddle (by unfold Word.count; omega)
    exact light_addGeq hlight h (by unfold Word.count; omega)
  next => exact light_addGeq hlight h (by unfold Word.count; omega)

/-- The value that units are given, by the variables that stand for them. -/
def valuesIn (sys : ConstraintSystem) (values : UnitId → Int) (index : Nat) : Int :=
  values (sys.unknowns.getD index 0)

theorem valuesIn_eq {values : UnitId → Int} {id : UnitId} {index : Nat}
    (h : sys.variableOf? id = some index) : sys.valuesIn values index = values id := by
  rw [valuesIn, Array.getD_eq_getD_getElem?, variableOf?_eq_some h, Option.getD_some]

theorem eq_of_valueOf?_valuesIn {values : UnitId → Int} {id : UnitId} {y : Int}
    (hslots : ∀ {slot : Nat}, g.slot? id = some slot → values id = slot)
    (h : sys.valueOf? g (sys.valuesIn values) id = some y) : y = values id := by
  unfold valueOf? at h
  cases hindex : sys.variableOf? id with
  | some index =>
      simp only [hindex, Option.some.injEq, valuesIn_eq hindex] at h
      exact h.symm
  | none =>
      simp only [hindex, Option.map_eq_some_iff] at h
      obtain ⟨slot, hslot, rfl⟩ := h
      exact (hslots hslot).symm

theorem isSlot_var (index : Nat) : (Term.var index).IsSlot := by
  simp [Term.IsSlot, Term.shift, Word.count]

theorem isSlot_of_term? (hwords : DataPath.HasWords g) {id : UnitId}
    (h : sys.term? g id = .ok (some term)) : term.IsSlot := by
  rcases term?_cases h with ⟨index, _, heq⟩ | ⟨_, heq⟩
  · cases heq
    exact isSlot_var index
  · obtain ⟨slot, hslot, rfl⟩ := Option.map_eq_some_iff.mp heq.symm
    have hword := hwords hslot
    exact ⟨Int.natCast_nonneg slot, by simp only [Term.shift]; omega⟩

end ConstraintSystem

/-- The unit depends on no other one twice, and its edges are in range. -/
structure ScheduleUnit.InRange (unit : ScheduleUnit) : Prop where
  nodup : unit.deps.keys.Nodup
  edges : ∀ dep ∈ unit.deps.entries, dep.2.edge.InRange

instance (unit : ScheduleUnit) : Decidable unit.InRange :=
  decidable_of_iff (unit.deps.keys.Nodup ∧ ∀ dep ∈ unit.deps.entries, dep.2.edge.InRange)
    ⟨fun h => ⟨h.1, h.2⟩, fun h => ⟨h.nodup, h.edges⟩⟩

namespace Graph

/-- The entry slot is a word, and all units are in range. -/
structure InRange (g : Graph) : Prop where
  entrySlot : g.entrySlot < Word.count
  units : ∀ {id : UnitId} {unit : ScheduleUnit}, g.units[id]? = some unit → unit.InRange

variable {g g' : Graph} {block : BlockId} {id : UnitId}

theorem InRange.of_frame_eq (h : g.InRange) (hframe : g'.frame = g.frame) : g'.InRange where
  entrySlot := entrySlot_of_frame_eq hframe ▸ h.entrySlot
  units := by
    intro id unit hunit
    obtain ⟨unit', hunit', hagree⟩ := exists_of_frame_eq hframe hunit
    have hrange := h.units hunit'
    exact ⟨hagree.deps ▸ hrange.nodup, hagree.deps ▸ hrange.edges⟩

theorem eq_of_startSlot {first : Option Nat} (h : g.startSlot block = .ok first) :
    first = (g.holder? (.entry block)).bind g.slot? := by
  unfold startSlot at h
  cases hentry : g.holder? (.entry block) with
  | none =>
      rw [hentry] at h
      cases h
      rfl
  | some entry =>
      rw [hentry] at h
      obtain ⟨unit, hunit, h⟩ := Checked.bind_eq_ok.mp h
      obtain rfl := Checked.pure_eq_ok.mp h
      rw [Option.bind_some, slot?_eq (unit_eq_ok.mp hunit)]

/-- The unit belongs to the data path and does not dangle, so that its slot is solved for. -/
def IsFloating (g : Graph) (id : UnitId) : Prop := g.IsData id ∧ g.IsNeeded id

/-- The slot of a unit that the floating units are placed around. -/
def fixedSlot? (g : Graph) (id : UnitId) : Option Nat :=
  g.units[id]?.bind fun unit => if unit.control || unit.dangling then unit.slot else none

/-- The slot in which a block is entered, or the first one of the graph if its entry has none. -/
def firstSlot (g : Graph) (block : BlockId) : Nat :=
  ((g.holder? (.entry block)).bind g.fixedSlot?).getD g.entrySlot

theorem isFloating_iff {unit : ScheduleUnit} (hunit : g.units[id]? = some unit) :
    g.IsFloating id ↔ unit.control = false ∧ unit.dangling = false := by
  simp [IsFloating, IsData, IsNeeded, hunit]

theorem fixedSlot?_of_not_isFloating (h : ¬g.IsFloating id) : g.fixedSlot? id = g.slot? id := by
  unfold fixedSlot? slot?
  cases hunit : g.units[id]? with
  | none => rfl
  | some unit =>
      rw [isFloating_iff hunit] at h
      cases hcontrol : unit.control <;> cases hdangling : unit.dangling <;> simp_all

theorem fixedSlot?_of_isFloating (h : g.IsFloating id) : g.fixedSlot? id = none := by
  have hdata := h.1
  obtain ⟨unit, hunit, _⟩ := hdata
  obtain ⟨hcontrol, hdangling⟩ := (isFloating_iff hunit).mp h
  simp [fixedSlot?, hunit, hcontrol, hdangling]

end Graph

namespace DataPath

open ConstraintSystem SlotScheduling.Graph

variable {g : Graph} {options : SchedulingOptions} {sys sys' : ConstraintSystem} {id : UnitId}
  {unit : ScheduleUnit} {index : Nat}

/-! ## No slot is rounded -/

section

variable (hwords : HasWords g) (hrange : g.InRange) (hlight : Arc.Light sys.arcs)

include hwords hlight

theorem light_addWindow (hentry : g.entrySlot < Word.count)
    (h : addWindow g options id unit (.var index) sys = .ok sys') : Arc.Light sys'.arcs := by
  obtain ⟨first, hfirst, h⟩ := Checked.bind_eq_ok.mp h
  obtain ⟨middle, hmiddle, h⟩ := Checked.bind_eq_ok.mp h
  have hword : first.getD g.entrySlot < Word.count := by
    cases first with
    | none => exact hentry
    | some slot =>
        obtain ⟨entry, _, hslot⟩ := Option.bind_eq_some_iff.mp (eq_of_startSlot hfirst).symm
        exact hwords hslot
  have hmiddle := light_addGeq hlight hmiddle (by
    simp only [Term.shift]
    unfold Word.count at *
    omega)
  split at h
  · obtain ⟨last, _, h⟩ := Checked.bind_eq_ok.mp h
    exact light_addGeq hmiddle (upperBound_eq_ok h) (by
      simp only [Term.shift]
      unfold Word.count
      omega)
  · obtain rfl := Checked.pure_eq_ok.mp h
    exact hmiddle

theorem light_addDep {dep : UnitId × EdgeBundle} (hedge : dep.2.edge.InRange)
    (h : addDep g unit (.var index) sys dep = .ok sys') : Arc.Light sys'.arcs := by
  obtain ⟨offset?, hoffset, h⟩ := Checked.bind_eq_ok.mp h
  have hgap := DepEdge.offset?_eq_minGap? hoffset
  cases offset? with
  | none =>
      obtain rfl := Checked.pure_eq_ok.mp h
      exact hlight
  | some offset =>
      obtain ⟨source?, hsource, h⟩ := Checked.bind_eq_ok.mp h
      cases source? with
      | none =>
          obtain rfl := Checked.pure_eq_ok.mp h
          exact hlight
      | some source =>
          exact light_addEdge hlight hedge hgap.symm (isSlot_var index)
            (isSlot_of_term? hwords hsource) h

include hrange

theorem light_addUse {user : UnitId} (h : addUse g id (.var index) sys user = .ok sys') :
    Arc.Light sys'.arcs := by
  obtain ⟨consumer, hconsumer, h⟩ := Checked.bind_eq_ok.mp h
  split at h
  next slot bundle _ hdep =>
    have hedge := (hrange.units (unit_eq_ok.mp hconsumer)).edges _
      (Table.mem_entries_of_get?_eq_some hdep)
    obtain ⟨offset?, hoffset, h⟩ := Checked.bind_eq_ok.mp h
    have hgap := DepEdge.offset?_eq_minGap? hoffset
    cases offset? with
    | none =>
        obtain rfl := Checked.pure_eq_ok.mp h
        exact hlight
    | some offset =>
        obtain ⟨target?, htarget, h⟩ := Checked.bind_eq_ok.mp h
        cases target? with
        | none =>
            obtain rfl := Checked.pure_eq_ok.mp h
            exact hlight
        | some target =>
            exact light_addEdge hlight hedge hgap.symm (isSlot_of_term? hwords htarget)
              (isSlot_var index) h
  next =>
    obtain rfl := Checked.pure_eq_ok.mp h
    exact hlight

theorem light_addUnit (h : addUnit g options sys id = .ok sys') : Arc.Light sys'.arcs := by
  obtain ⟨unit, hunit, _⟩ := Checked.bind_eq_ok.mp h
  rw [Graph.unit_eq_ok] at hunit
  rcases addUnit_cases hunit h with
    ⟨index, started, middle, _, _, _, hstarted, hmiddle, hend⟩ | ⟨rfl, _⟩
  · have hstart : Arc.Light started.arcs := by
      split at hstarted
      · obtain rfl := Checked.pure_eq_ok.mp hstarted
        exact hlight
      · exact light_addWindow hwords hlight hrange.entrySlot hstarted
    have hdeps : Arc.Light middle.arcs :=
      Checked.foldlM_induction (P := fun sys => Arc.Light sys.arcs)
        (fun dep hmem _ _ hbefore hround =>
          light_addDep hwords hbefore ((hrange.units hunit).edges dep hmem) hround) hstart hmiddle
    exact Checked.foldlM_induction (P := fun sys => Arc.Light sys.arcs)
      (fun _ _ _ _ hbefore hround => light_addUse hwords hrange hbefore hround) hdeps hend
  · exact hlight

end

theorem light_build (hwords : HasWords g) (hrange : g.InRange)
    (h : build g options = .ok sys) : Arc.Light sys.arcs := by
  obtain ⟨base, hbase, h⟩ := Checked.bind_eq_ok.mp h
  refine Checked.foldlM_induction (P := fun sys => Arc.Light sys.arcs)
    (fun _ _ _ _ hbefore hround => light_addUnit hwords hrange hbefore hround) ?_ h
  rw [(isFree_ofFree hbase).arcs]
  exact fun arc hmem => absurd hmem List.not_mem_nil

/-! ## Fitting assignments -/

/-- Values that fit: a unit that does not float has its slot for a value, every dependency of
or on a floating unit is met, and a floating unit that is not frozen lies within its block,
whose end only counts when units are placed late. -/
structure Fits (options : SchedulingOptions) (g : Graph) (values : UnitId → Int) : Prop where
  fixed : ∀ {id slot}, g.fixedSlot? id = some slot → values id = slot
  edges : ∀ {user source : UnitId} {consumer : ScheduleUnit} {bundle : EdgeBundle},
    g.units[user]? = some consumer → consumer.dep? source = some bundle →
    g.IsFloating user ∨ g.IsFloating source →
    ∀ gap ∈ bundle.edge.minGap? (g.interval? consumer.block),
      bundle.edge.Admits gap (values user - values source)
  window : ∀ {id : UnitId} {unit : ScheduleUnit}, g.units[id]? = some unit → g.IsFloating id →
    unit.fixedTiming = false →
    (g.firstSlot unit.block : Int) ≤ values id ∧
      (options.dataPathLate = true →
        ∃ last, g.endSlot unit.block = .ok (some last) ∧ values id ≤ (last : Int))

/-- The units without slots are those that float. -/
structure Split (g : Graph) : Prop where
  floating : ∀ {id}, g.IsFloating id → g.slot? id = none
  others : ∀ {id : UnitId}, id < g.units.size → ¬g.IsFloating id → ∃ slot, g.slot? id = some slot

section

variable {base : ConstraintSystem} {values : UnitId → Int} {known : Nat → Int}

theorem Split.fixedSlot?_eq (h : Split g) : g.fixedSlot? = g.slot? := by
  funext id
  by_cases hid : g.IsFloating id
  · rw [fixedSlot?_of_isFloating hid, h.floating hid]
  · exact fixedSlot?_of_not_isFloating hid

theorem Split.isFloating (h : Split g) (hunit : g.units[id]? = some unit)
    (hslot : unit.slot = none) : g.IsFloating id := by
  by_contra hid
  obtain ⟨slot, hsome⟩ := h.others (lt_size_of_getElem? hunit) hid
  rw [slot?_eq hunit, hslot] at hsome
  cases hsome

section

variable (h : Describes base g options sys) (hg : g.WellFormed) (hsplit : Split g)
  (hknown : sys.Satisfies known)
  (hvalues : ∀ {id : UnitId}, id < g.units.size → base.valueOf? g known id = some (values id))

include h hg hsplit hknown hvalues

/-- The value of a floating unit, which is that of its variable, respects the window, the
dependencies and the uses of the unit. -/
theorem Describes.meets_of_isFloating (hunit : g.units[id]? = some unit) (hid : g.IsFloating id) :
    (unit.fixedTiming = false → WithinWindow g options unit (values id)) ∧
      (∀ dep ∈ unit.deps.entries, MeetsDep base g known unit (values id) dep) ∧
      ∀ user ∈ unit.uses.toList, MeetsUse base g known id (values id) user := by
  have hslot := hsplit.floating hid
  have hmem := hg.data.mpr hid.1
  obtain ⟨index, hindex⟩ := h.free.exists_index hmem hslot
  have hvalue := hvalues (lt_size_of_getElem? hunit)
  rw [valueOf?, hindex] at hvalue
  rw [← Option.some.inj hvalue]
  exact h.units hknown id hmem unit index hunit ((slot?_eq hunit).symm.trans hslot) hindex

/-- A solution of the system fits. -/
theorem Describes.fits : Fits options g values := by
  refine ⟨fun {id slot} hfixed => ?_, ?_, ?_⟩
  · rw [hsplit.fixedSlot?_eq] at hfixed
    have hnone : base.variableOf? id = none :=
      h.free.variableOf?_eq_none fun hfree => by simp [hfixed] at hfree
    obtain ⟨unit, hunit, _⟩ := Option.bind_eq_some_iff.mp hfixed
    have hvalue := hvalues (lt_size_of_getElem? hunit)
    rw [valueOf?, hnone] at hvalue
    simp only [hfixed, Option.map_some, Option.some.injEq] at hvalue
    exact hvalue.symm
  · intro user source consumer bundle hconsumer hdep hfloats gap hgap
    have hentry := Table.mem_entries_of_get?_eq_some hdep
    obtain ⟨producer, hproducer⟩ := hg.exists_source hconsumer hentry
    by_cases huser : g.IsFloating user
    · obtain ⟨_, hdeps, _⟩ := h.meets_of_isFloating hg hsplit hknown hvalues hconsumer huser
      obtain ⟨offset?, hoffset, hadmits⟩ := hdeps _ hentry
      rw [DepEdge.offset?_eq_minGap? hoffset] at hadmits
      exact hadmits gap hgap _ (hvalues (lt_size_of_getElem? hproducer))
    · -- A unit that is placed already is asked for by the units that it waits for.
      have hsource := hfloats.resolve_left huser
      obtain ⟨_, _, huses⟩ := h.meets_of_isFloating hg hsplit hknown hvalues hproducer hsource
      obtain ⟨slot, hplaced⟩ := hsplit.others (lt_size_of_getElem? hconsumer) huser
      rw [slot?_eq hconsumer] at hplaced
      obtain ⟨producer', hproducer', huse⟩ := hg.linked.mp
        ⟨consumer, hconsumer, Table.mem_keys_iff.mpr ⟨bundle, hdep⟩⟩
      obtain rfl := Option.some.inj (hproducer.symm.trans hproducer')
      obtain ⟨offset?, hoffset, hadmits⟩ :=
        huses user huse consumer bundle hconsumer (by simp [hplaced]) hdep
      rw [DepEdge.offset?_eq_minGap? hoffset] at hadmits
      exact hadmits gap hgap _ (hvalues (lt_size_of_getElem? hconsumer))
  · intro id unit hunit hid hunfrozen
    obtain ⟨hwindow, _, _⟩ := h.meets_of_isFloating hg hsplit hknown hvalues hunit hid
    obtain ⟨⟨first, hfirst, hlow⟩, hlate⟩ := hwindow hunfrozen
    rw [eq_of_startSlot hfirst, ← hsplit.fixedSlot?_eq] at hlow
    exact ⟨hlow, hlate⟩

end

/-- What the constraints of a unit are made of is there: the start of its block, unless it is
frozen, and the offsets of the edges that it is part of. -/
structure Readable (g : Graph) (id : UnitId) (unit : ScheduleUnit) : Prop where
  start : unit.fixedTiming = false → ∃ first, g.startSlot unit.block = .ok first
  deps : ∀ dep ∈ unit.deps.entries,
    ∃ offset?, dep.2.edge.offset? (g.interval? unit.block) = .ok offset?
  uses : ∀ user ∈ unit.uses.toList, ∀ consumer bundle, g.units[user]? = some consumer →
    consumer.slot.isSome → consumer.dep? id = some bundle →
    ∃ offset?, bundle.edge.offset? (g.interval? consumer.block) = .ok offset?

/-- That the system could be built is read off a solution that is known. -/
theorem Describes.readable (h : Describes base g options sys) (hknown : sys.Satisfies known)
    (hmem : id ∈ g.dataUnits) (hunit : g.units[id]? = some unit) (hslot : unit.slot = none) :
    Readable g id unit := by
  obtain ⟨index, hindex⟩ := h.free.exists_index hmem ((slot?_eq hunit).trans hslot)
  obtain ⟨hwindow, hdeps, huses⟩ := h.units hknown id hmem unit index hunit hslot hindex
  refine ⟨fun hunfrozen => ?_, fun dep hdep => ?_, fun user huser consumer bundle hconsumer
    hplaced hdep => ?_⟩
  · exact (hwindow hunfrozen).1.imp fun _ h => h.1
  · exact (hdeps dep hdep).imp fun _ h => h.1
  · exact (huses user huser consumer bundle hconsumer hplaced hdep).imp fun _ h => h.1

/-- What fits is a solution of the system, as long as it can be built at all. -/
theorem Describes.satisfies_of_fits (h : Describes base g options sys) (hrange : g.InRange)
    (hsplit : Split g)
    (hreads : ∀ {id unit}, id ∈ g.dataUnits → g.units[id]? = some unit → unit.slot = none →
      Readable g id unit)
    (hfits : Fits options g values) :
    sys.Satisfies (base.valuesIn values) := by
  have hread : ∀ {id : UnitId} {y : Int}, base.valueOf? g (base.valuesIn values) id = some y →
      y = values id :=
    fun hy => eq_of_valueOf?_valuesIn (fun hslot => hfits.fixed (hsplit.fixedSlot?_eq ▸ hslot)) hy
  have hbase : base.Satisfies (base.valuesIn values) := ⟨h.free.violated, by simp [h.free.arcs]⟩
  refine (h.adds.satisfies _).mpr ⟨hbase, fun id hmem unit index hunit hslot hindex => ?_⟩
  have hid := hsplit.isFloating hunit hslot
  have hreads := hreads hmem hunit hslot
  rw [valuesIn_eq hindex]
  refine ⟨fun hunfrozen => ?_, fun dep hdep => ?_, fun user huser => ?_⟩
  · obtain ⟨first, hfirst⟩ := hreads.start hunfrozen
    obtain ⟨hlow, hlate⟩ := hfits.window hunit hid hunfrozen
    refine ⟨⟨first, hfirst, ?_⟩, hlate⟩
    rw [eq_of_startSlot hfirst, ← hsplit.fixedSlot?_eq]
    exact hlow
  · obtain ⟨offset?, hoffset⟩ := hreads.deps dep hdep
    refine ⟨offset?, hoffset, fun offset hsome y hy => ?_⟩
    rw [DepEdge.offset?_eq_minGap? hoffset] at hsome
    rw [hread hy]
    exact hfits.edges hunit (Table.get?_of_mem_entries (hrange.units hunit).nodup hdep)
      (Or.inl hid) offset hsome
  · intro consumer bundle hconsumer hplaced hdep
    obtain ⟨offset?, hoffset⟩ := hreads.uses user huser consumer bundle hconsumer hplaced hdep
    refine ⟨offset?, hoffset, fun offset hsome y hy => ?_⟩
    rw [DepEdge.offset?_eq_minGap? hoffset] at hsome
    rw [hread hy]
    exact hfits.edges hconsumer hdep (Or.inr hid) offset hsome

end

end DataPath

end SlotScheduling
