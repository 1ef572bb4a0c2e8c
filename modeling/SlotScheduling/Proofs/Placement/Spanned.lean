import Mathlib.Algebra.Group.Nat.Defs
import Mathlib.Data.Finset.Card
import SlotScheduling.Proofs.Graph.Tidy
import SlotScheduling.Proofs.Placement.LookThrough

/-!
# What is found lies on a path

Where no cycle lies in the data path alone, everything that looking through it finds is
the span of some path.  Looking through it does not fail as long as the paths that lead on to a
control unit have small spans; and where all offsets are small they have, because a path comes to
no unit twice.
-/

namespace SlotScheduling

namespace Offset

theorem exists_check {x : Int} (limit : Nat) (hx : x.natAbs ≤ limit) (hlimit : limit ≤ 2 ^ 62) :
    check x = .ok x :=
  check_eq_ok.mpr ⟨by unfold bound; omega, rfl⟩

end Offset

namespace Graph

variable {g : Graph} {source user : UnitId}

/-- No cycle lies in the data path alone. -/
def Untangled (g : Graph) : Prop := ∀ id, ¬g.Circular id

open Classical in
/-- The number of data-path units that a unit is reached from over the data path,
itself included. -/
noncomputable def depth (g : Graph) (id : UnitId) : Nat :=
  ((Finset.range g.units.size).filter fun source => Relation.ReflTransGen g.Feeds source id).card

theorem depth_le (g : Graph) (id : UnitId) : g.depth id ≤ g.units.size := by
  classical
  exact (Finset.card_filter_le _ _).trans_eq (Finset.card_range _)

theorem depth_lt_of_feeds (hg : g.Untangled) (h : g.Feeds source user) :
    g.depth source < g.depth user := by
  classical
  refine Finset.card_lt_card ((Finset.ssubset_iff_of_subset fun other hother => ?_).mpr
    ⟨user, ?_, ?_⟩)
  · obtain ⟨hlt, hreaches⟩ := Finset.mem_filter.mp hother
    exact Finset.mem_filter.mpr ⟨hlt, hreaches.tail h⟩
  · exact Finset.mem_filter.mpr ⟨Finset.mem_range.mpr h.2.1.lt_size, .refl⟩
  · intro hmem
    exact hg user (Relation.TransGen.tail' (Finset.mem_filter.mp hmem).2 h)

theorem one_le_depth (h : g.IsData user) : 1 ≤ g.depth user := by
  classical
  refine Finset.card_pos.mpr ⟨user, Finset.mem_filter.mpr ⟨?_, .refl⟩⟩
  exact Finset.mem_range.mpr h.lt_size

/-- A control unit is reached from the unit over the data path. -/
def IsSeen (g : Graph) (id : UnitId) : Prop :=
  ∃ source user, Relation.ReflTransGen g.Feeds id source ∧ g.IsControl user ∧
    g.DependsOn user source

theorem IsSeen.of_feeds (h : g.IsSeen user) (hfeeds : g.Feeds source user) : g.IsSeen source := by
  obtain ⟨last, control, hreaches, hcontrol, hdepends⟩ := h
  exact ⟨last, control, hreaches.head hfeeds, hcontrol, hdepends⟩

end Graph

/-- Every offset is known, and all that the control path is asked for stays in the range in which
the solver is exact: what control units ask of each other, and what they ask over the data path. -/
structure ControlBounds.Suits (bounds : ControlBounds) (g : Graph) : Prop
    extends g.WellFormed, g.Tidy where
  unfrozen : ∀ {id : UnitId} {unit : ScheduleUnit}, g.units[id]? = some unit →
    unit.fixedTiming = false
  untangled : g.Untangled
  known : ∀ {id : UnitId} {unit : ScheduleUnit}, g.units[id]? = some unit →
    ∀ dep ∈ unit.deps.entries, ∃ offset?, bounds.offset? g unit.block dep.2.edge = .ok offset?
  direct : ∀ {source user : UnitId} {offset : Int}, g.IsControl source → g.IsControl user →
    bounds.Asks g source user offset → offset.natAbs ≤ 2 ^ 52
  spans : ∀ {control id : UnitId} {span : Int}, g.IsSeen id →
    LookThrough.Spans g bounds control id span → span.natAbs ≤ 2 ^ 52
  through : ∀ {control source user : UnitId} {span offset : Int},
    LookThrough.Spans g bounds control source span → g.IsControl user →
    bounds.Asks g source user offset → (span + offset).natAbs ≤ 2 ^ 52

/-- No offset of a dependency is larger than the limit, and no sum of them over the data path
leaves the range in which the solver is exact. -/
structure ControlBounds.Limited (bounds : ControlBounds) (g : Graph) (limit : Nat) : Prop
    extends g.WellFormed, g.Tidy where
  unfrozen : ∀ {id : UnitId} {unit : ScheduleUnit}, g.units[id]? = some unit →
    unit.fixedTiming = false
  untangled : g.Untangled
  within : ∀ {id : UnitId} {unit : ScheduleUnit}, g.units[id]? = some unit →
    ∀ dep ∈ unit.deps.entries,
      ∃ offset?, bounds.offset? g unit.block dep.2.edge = .ok offset? ∧
        ∀ offset ∈ offset?, offset.natAbs ≤ limit
  room : limit * (g.units.size + 1) ≤ 2 ^ 52

namespace LookThrough

variable {g : Graph} {bounds : ControlBounds} {found : LookThrough} {id control : UnitId}
  {unit : ScheduleUnit} {sources : ControlSources} {span : Int} {limit : Nat}

theorem Spans.isControl (h : Spans g bounds control id span) : g.IsControl control := by
  induction h with
  | start hcontrol => exact hcontrol
  | step _ _ _ _ ih => exact ih

theorem natAbs_le_of_asks (h : bounds.Limited g limit) {source : UnitId} {offset : Int}
    (hasks : bounds.Asks g source id offset) : offset.natAbs ≤ limit := by
  obtain ⟨unit, bundle, hunit, hbundle, hoffset⟩ := hasks
  obtain ⟨offset?, hfound, hle⟩ := h.within hunit _ (Table.mem_entries_of_get?_eq_some hbundle)
  rw [hoffset] at hfound
  cases hfound
  exact hle offset rfl

/-- A path asks for no more than each of its steps does. -/
theorem Spans.natAbs_le_depth (hg : bounds.Limited g limit) (h : Spans g bounds control id span) :
    span.natAbs ≤ limit * g.depth id := by
  induction h with
  | start _ hdata _ hasks =>
      exact (natAbs_le_of_asks hg hasks).trans
        (Nat.le_mul_of_pos_right limit (Graph.one_le_depth hdata))
  | @step source id span offset hspans hdata _ hasks ih =>
      have hfeeds : g.Feeds source id := ⟨hspans.isData, hdata, hasks.dependsOn⟩
      have hoffset := natAbs_le_of_asks hg hasks
      calc (span + offset).natAbs ≤ span.natAbs + offset.natAbs := Int.natAbs_add_le _ _
        _ ≤ limit * g.depth source + limit := Nat.add_le_add ih hoffset
        _ = limit * (g.depth source + 1) := (Nat.mul_succ _ _).symm
        _ ≤ limit * g.depth id :=
            Nat.mul_le_mul_left _ (Graph.depth_lt_of_feeds hg.untangled hfeeds)

theorem Spans.natAbs_le (hg : bounds.Limited g limit) (h : Spans g bounds control id span) :
    span.natAbs ≤ limit * g.units.size :=
  (h.natAbs_le_depth hg).trans (Nat.mul_le_mul_left limit (g.depth_le id))

theorem suits_of_limited (hg : bounds.Limited g limit) : bounds.Suits g := by
  have hroom := hg.room
  rw [Nat.mul_succ] at hroom
  refine ⟨hg.toWellFormed, hg.toTidy, hg.unfrozen, hg.untangled, fun hunit dep hdep => ?_,
    fun _ _ hasks => ?_, fun _ hspans => ?_,
    fun {control source user span offset} hspans _ hasks => ?_⟩
  · exact (hg.within hunit dep hdep).imp fun _ h => h.1
  · have := natAbs_le_of_asks hg hasks
    omega
  · have := hspans.natAbs_le hg
    omega
  · have hspan := hspans.natAbs_le hg
    have hoffset := natAbs_le_of_asks hg hasks
    omega

/-- From each of the sources a path with that offset leads to the unit. -/
def Lead (g : Graph) (bounds : ControlBounds) (id : UnitId) (sources : ControlSources) : Prop :=
  ∀ entry ∈ sources.entries, Spans g bounds entry.1 id entry.2

theorem lead_empty : Lead g bounds id .empty := fun _ hmem => absurd hmem List.not_mem_nil

theorem Lead.raise {offset : Int} (h : Lead g bounds id sources)
    (hspans : Spans g bounds control id offset) :
    Lead g bounds id (sources.raise control offset) := by
  intro entry hentry
  unfold ControlSources.raise Table.upsert at hentry
  split at hentry
  · rcases Table.mem_entries_modify hentry with hold | ⟨old, hold, rfl⟩
    · exact h entry hold
    · rcases max_choice old offset with heq | heq
      · simpa only [heq] using h _ hold
      · simpa only [heq] using hspans
  · rcases Table.mem_entries_insert.mp hentry with rfl | ⟨hold, _⟩
    · exact hspans
    · exact h entry hold

/-- Whatever was found is the span of a path. -/
def Exact (g : Graph) (bounds : ControlBounds) (found : LookThrough) : Prop :=
  ∀ {id sources}, found.sources? id = some sources → Lead g bounds id sources

theorem exact_start : Exact g bounds (start g) := by
  intro id sources hsources
  simp [sources?, start, Array.getD_eq_getD_getElem?, Array.getElem?_replicate] at hsources
  split at hsources <;> cases hsources

theorem Exact.set (hfound : Exact g bounds found) (hid : id < found.size)
    (hsources : Lead g bounds id sources) :
    Exact g bounds (found.setIfInBounds id (some sources)) := by
  intro other known hknown
  rw [sources?_set hid] at hknown
  split at hknown
  next heq =>
    cases hknown
    exact heq ▸ hsources
  next => exact hfound hknown

section

variable (hg : bounds.Suits g)

include hg

theorem exists_addDep (hunit : g.units[id]? = some unit) (hdata : g.IsData id) (hseen : g.IsSeen id)
    (hfound : Exact g bounds found) {dep : UnitId × EdgeBundle} (hmem : dep ∈ unit.deps.entries)
    (hsources : Lead g bounds id sources) :
    ∃ sources', addDep g bounds found unit sources dep = .ok sources' ∧
      Lead g bounds id sources' := by
  obtain ⟨offset?, hoffset⟩ := hg.known hunit dep hmem
  obtain ⟨producer, hproducer⟩ := hg.toWellFormed.exists_source hunit hmem
  cases offset? with
  | none => exact ⟨sources, by rw [addDep, hoffset]; rfl, hsources⟩
  | some offset =>
      have hget := Table.get?_of_mem_entries (hg.tidy hunit).nodup hmem
      have hasks : bounds.Asks g dep.1 id offset := ⟨unit, dep.2, hunit, hget, hoffset⟩
      rw [addDep, hoffset, Checked.ok_bind]
      simp only [Graph.unit_eq_ok.mpr hproducer, Checked.ok_bind]
      cases hcontrol : producer.control with
      | true =>
          refine ⟨_, if_pos rfl, hsources.raise ?_⟩
          exact .start ⟨producer, hproducer, hcontrol⟩ hdata (hg.untangled id) hasks
      | false =>
          rw [if_neg Bool.false_ne_true]
          cases hinner : found.sources? dep.1 with
          | none => exact ⟨sources, rfl, hsources⟩
          | some inner =>
              refine Checked.exists_foldlM (P := Lead g bounds id)
                (fun entry hentry before hbefore => ?_) hsources
              have hnext : Spans g bounds entry.1 id (entry.2 + offset) :=
                (hfound hinner entry hentry).step hdata (hg.untangled id) hasks
              refine ⟨_, ?_, hbefore.raise hnext⟩
              rw [Offset.add, Offset.exists_check _ (hg.spans hseen hnext) (by decide)]
              rfl

theorem exists_combine (hdata : g.IsData id) (hseen : g.IsSeen id) (hfound : Exact g bounds found) :
    ∃ sources, combine g bounds found id = .ok sources ∧ Lead g bounds id sources := by
  have hisData := hdata
  obtain ⟨unit, hunit, -⟩ := hisData
  obtain ⟨sources, hsources, hspans⟩ := Checked.exists_foldlM (P := Lead g bounds id)
    (fun dep hdep _ hbefore => exists_addDep hg hunit hdata hseen hfound hdep hbefore) lead_empty
  refine ⟨sources, ?_, hspans⟩
  rw [combine, Graph.unit_eq_ok.mpr hunit, Checked.ok_bind, hsources, Checked.ok_bind,
    hg.unfrozen hunit]
  rfl

/-- Looking through the data path does not fail, and finds spans of paths only. -/
theorem exists_resolve (depth : Nat) (path : List UnitId) (hdata : g.IsData id)
    (hseen : g.IsSeen id) (hsize : found.size = g.units.size) (hfound : Exact g bounds found) :
    ∃ found', resolve g bounds depth path found id = .ok found' ∧ found'.size = g.units.size ∧
      Exact g bounds found' := by
  induction depth generalizing path found id with
  | zero => exact ⟨found, rfl, hsize, hfound⟩
  | succ depth ih =>
      unfold resolve
      split
      · exact ⟨found, rfl, hsize, hfound⟩
      · have hisData := hdata
        obtain ⟨unit, hunit, -⟩ := hisData
        have hvisit : ∀ source ∈ unit.deps.keys.reverse, ∀ before : LookThrough,
            (before.size = g.units.size ∧ Exact g bounds before) →
            ∃ after, (do
              if (← g.unit source).isData then resolve g bounds depth (id :: path) before source
              else return before) = .ok after ∧
                after.size = g.units.size ∧ Exact g bounds after := by
          intro source hsource before hbefore
          obtain ⟨bundle, hbundle⟩ := Table.mem_keys_iff.mp (List.mem_reverse.mp hsource)
          obtain ⟨producer, hproducer⟩ := hg.toWellFormed.exists_source hunit
            (Table.mem_entries_of_get?_eq_some hbundle)
          rw [Graph.unit_eq_ok.mpr hproducer, Checked.ok_bind]
          split
          next hisData =>
            have hproduces : g.IsData source :=
              ⟨producer, hproducer, by simpa [ScheduleUnit.isData] using hisData⟩
            have hfeeds : g.Feeds source id :=
              ⟨hproduces, hdata, unit, hunit, List.mem_reverse.mp hsource⟩
            exact ih (id :: path) hproduces (hseen.of_feeds hfeeds) hbefore.1 hbefore.2
          next => exact ⟨before, rfl, hbefore⟩
        obtain ⟨inside, hinside, hsize, hfound⟩ :=
          Checked.exists_foldlM hvisit ⟨hsize, hfound⟩
        obtain ⟨sources, hsources, hspans⟩ := exists_combine hg hdata hseen hfound
        refine ⟨_, ?_, ?_, hfound.set (hsize ▸ hdata.lt_size) hspans⟩
        · rw [Graph.unit_eq_ok.mpr hunit, Checked.ok_bind, hinside, Checked.ok_bind, hsources,
            Checked.ok_bind]
          rfl
        · simpa using hsize

theorem exists_sourcesOf (hdata : g.IsData id) (hseen : g.IsSeen id)
    (hcomplete : Complete g bounds found) (hfound : Exact g bounds found) :
    ∃ sources found', sourcesOf g bounds found id = .ok (sources, found') ∧
      Complete g bounds found' ∧ Exact g bounds found' ∧ Lead g bounds id sources := by
  obtain ⟨found', hresolve, _, hexact⟩ :=
    exists_resolve hg (g.units.size + 1) [] hdata hseen hcomplete.size hfound
  have hok : sourcesOf g bounds found id = .ok ((found'.sources? id).getD .empty, found') := by
    rw [sourcesOf, hresolve]
    rfl
  obtain ⟨hafter, hsources⟩ := sourcesOf_sound hcomplete hdata hok
  exact ⟨_, found', hok, hafter, hexact, hexact hsources⟩

end

end LookThrough

end SlotScheduling
