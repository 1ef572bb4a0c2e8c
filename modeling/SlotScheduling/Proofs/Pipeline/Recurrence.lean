import Mathlib.Algebra.Order.BigOperators.Group.List
import Mathlib.Data.Finset.Order
import Mathlib.Data.List.Nodup
import SlotScheduling.Pipeline.Recurrence
import SlotScheduling.Proofs.Difference.LongestPaths
import SlotScheduling.Proofs.Failures
import SlotScheduling.Proofs.Loops

/-!
# Intervals of recurrences

An interval suits a recurrence when values can be given to its nodes that grow along
every arc by at least the offset of the arc.  The test for positive cycles finds out
which intervals do, and the search takes the first one of them.  The test counts the
slots that an arc spans as offsets: where they are too many for one, it faults, and
so does a search that comes there before it finds an interval.
-/

namespace SlotScheduling

theorem Word.foldlM_add_eq_ok {terms : List Nat} {first total : Nat} (hfirst : first < count) :
    terms.foldlM add first = .ok total ↔
      first + terms.sum < count ∧ total = first + terms.sum := by
  induction terms generalizing first with
  | nil => simp [hfirst]
  | cons term rest ih =>
      rw [List.foldlM_cons, Checked.bind_eq_ok, List.sum_cons, ← Nat.add_assoc]
      constructor
      · rintro ⟨next, hnext, hrest⟩
        obtain ⟨hlt, rfl⟩ := add_eq_ok.mp hnext
        exact (ih hlt).mp hrest
      · rintro ⟨hlt, rfl⟩
        have hnext : first + term < count := by omega
        exact ⟨_, add_eq_ok.mpr ⟨hnext, rfl⟩, (ih hnext).mpr ⟨hlt, rfl⟩⟩

theorem Word.sum_eq_ok {terms : List Nat} {total : Nat} :
    sum terms = .ok total ↔ terms.sum < count ∧ total = terms.sum := by
  have hsum : sum terms = .ok total ↔ 0 + terms.sum < count ∧ total = 0 + terms.sum :=
    foldlM_add_eq_ok (by decide)
  rwa [Nat.zero_add] at hsum

namespace LoopArc

variable {units : List ScheduleUnit} {arc : LoopArc}

/-- The arcs are the dependencies among the units. -/
theorem mem_ofUnits (hnodup : (units.map (·.id)).Nodup) :
    arc ∈ ofUnits units ↔
      ∃ producer consumer, units[arc.source]? = some producer ∧
        units[arc.target]? = some consumer ∧
        ∃ bundle, (producer.id, bundle) ∈ consumer.deps.entries ∧ bundle.edge = arc.edge := by
  have hplace : ∀ id source, (units.map (·.id)).idxOf? id = some source ↔
      ∃ producer, units[source]? = some producer ∧ producer.id = id := by
    intro id source
    rw [List.idxOf?_eq_some_iff]
    constructor
    · rintro ⟨hlt, hid, _⟩
      rw [List.length_map] at hlt
      exact ⟨units[source], List.getElem?_eq_getElem hlt, by simpa using hid⟩
    · rintro ⟨producer, hproducer, rfl⟩
      obtain ⟨hlt, rfl⟩ := List.getElem?_eq_some_iff.mp hproducer
      have hlt' : source < (units.map (·.id)).length := by simpa using hlt
      refine ⟨hlt', List.getElem_map _, fun other hother heq => ?_⟩
      have hsame := hnodup.getElem_inj_iff.mp (heq.trans (List.getElem_map _ (h := hlt')).symm)
      omega
  simp only [ofUnits, List.mem_flatMap, List.mem_filterMap, Option.map_eq_some_iff, Prod.exists,
    List.mem_zipIdx_iff_getElem?, hplace]
  constructor
  · rintro ⟨consumer, target, hconsumer, id, bundle, hmem, source, ⟨producer, hproducer, rfl⟩, rfl⟩
    exact ⟨producer, consumer, hproducer, hconsumer, bundle, hmem, rfl⟩
  · rintro ⟨producer, consumer, hproducer, hconsumer, bundle, hmem, hedge⟩
    exact ⟨consumer, arc.target, hconsumer, producer.id, bundle, hmem, arc.source,
      ⟨producer, hproducer, rfl⟩, by rw [hedge]⟩

end LoopArc

namespace Component

variable {component : Component} {interval : Nat}

/-- The arcs stay among the members. -/
def Closed (component : Component) : Prop :=
  ∀ arc ∈ component.arcs, arc.source ∈ component.members ∧ arc.target ∈ component.members

/-- At this interval, the values of the nodes grow along every arc by at least its offset. -/
def IsSlotting (component : Component) (interval : Nat) (value : Nat → Int) : Prop :=
  ∀ arc ∈ component.arcs, value arc.source + arc.edge.offsetAt interval ≤ value arc.target

def Suits (component : Component) (interval : Nat) : Prop :=
  ∃ value, component.IsSlotting interval value

/-- At this interval, some arc spans more slots than an offset can count. -/
def Outreaches (component : Component) (interval : Nat) : Prop :=
  ∃ arc ∈ component.arcs, arc.edge.Outreaches interval

theorem Outreaches.mono {longer : Nat} (h : component.Outreaches interval)
    (hle : interval ≤ longer) : component.Outreaches longer :=
  h.imp fun _ ⟨harc, hspan⟩ => ⟨harc, hspan.mono hle⟩

theorem closed_ofNode (nodes : Nat) (arcs : List LoopArc) (together : Nat → Nat → Bool)
    (node : Nat) : (ofNode nodes arcs together node).Closed := by
  intro arc harc
  have hends := (List.mem_filter.mp harc).2
  simpa [ofNode] using hends

/-- The node that stands for a member in the test for positive cycles. -/
def node (component : Component) (member : Nat) : Nat := component.members.idxOf member + 1

/-- The arcs of the test for positive cycles. -/
def testArcs (component : Component) (interval : Nat) : List Arc :=
  (component.members.map fun member => Arc.mk 0 (component.node member) 0) ++
    component.arcs.map fun arc =>
      Arc.mk (component.node arc.source) (component.node arc.target) (arc.edge.offsetAt interval)

/-- An answer of the test is the one of its arcs. -/
theorem hasPositiveCycle_eq_ok {positive : Bool}
    (h : component.hasPositiveCycle interval = .ok positive) :
    positive =
      (longestPaths? id (component.members.length + 1) (component.testArcs interval)).isNone := by
  obtain ⟨steps, hsteps, hpositive⟩ := Checked.bind_eq_ok.mp h
  have hsame : List.Forall₂ Eq (component.arcs.map fun arc =>
      Arc.mk (component.node arc.source) (component.node arc.target)
        (arc.edge.offsetAt interval)) steps := by
    refine List.forall₂_map_left_iff.mpr ((Checked.mapM_eq_ok hsteps).imp fun arc step hstep => ?_)
    obtain ⟨offset, hoffset, hstep⟩ := Checked.bind_eq_ok.mp hstep
    rw [Checked.pure_eq_ok.mp hstep, DepEdge.minOffset_eq_ok hoffset]
    rfl
  rw [List.forall₂_eq_eq_eq] at hsame
  rw [Checked.pure_eq_ok.mp hpositive, testArcs, hsame]
  rfl

theorem node_lt {member : Nat} (h : member ∈ component.members) :
    component.node member < component.members.length + 1 :=
  Nat.succ_lt_succ (List.idxOf_lt_length_of_mem h)

theorem Closed.within (hclosed : component.Closed) :
    Arc.Within (component.members.length + 1) (component.testArcs interval) := by
  intro arc harc
  rcases List.mem_append.mp harc with hstart | hstep
  · obtain ⟨member, hmember, rfl⟩ := List.mem_map.mp hstart
    exact ⟨Nat.succ_pos _, node_lt hmember⟩
  · obtain ⟨step, hmem, rfl⟩ := List.mem_map.mp hstep
    exact ⟨node_lt (hclosed step hmem).1, node_lt (hclosed step hmem).2⟩

/-- Below all values, the first node turns values into a potential. -/
theorem IsSlotting.exists_potential {value : Nat → Int} (hclosed : component.Closed)
    (h : component.IsSlotting interval value) :
    ∃ potential, Arc.IsPotential (component.testArcs interval) potential := by
  obtain ⟨depth, hdepth⟩ := (component.members.map fun member => -value member).toFinset.exists_le
  have hat : ∀ member ∈ component.members,
      (component.members[component.node member - 1]?.map value).getD 0 = value member := by
    intro member hmember
    simp [node, List.getElem?_idxOf hmember]
  refine ⟨fun node => if node = 0 then -depth else
    (component.members[node - 1]?.map value).getD 0, fun arc harc => ?_⟩
  rcases List.mem_append.mp harc with hstart | hstep
  · obtain ⟨member, hmember, rfl⟩ := List.mem_map.mp hstart
    have hle := hdepth (-value member)
      (List.mem_toFinset.mpr (List.mem_map_of_mem (f := fun member => -value member) hmember))
    simp only [node, Nat.succ_ne_zero, List.getElem?_idxOf hmember, if_true, if_false,
      Nat.add_sub_cancel, Option.map_some, Option.getD_some]
    omega
  · obtain ⟨step, hmem, rfl⟩ := List.mem_map.mp hstep
    obtain ⟨hsource, htarget⟩ := hclosed step hmem
    have hgap := h step hmem
    rw [← hat _ hsource, ← hat _ htarget] at hgap
    simpa [node] using hgap

/-- The test passes exactly if the interval suits. -/
theorem isNone_longestPaths?_eq_false (hclosed : component.Closed) (interval : Nat) :
    (longestPaths? id (component.members.length + 1) (component.testArcs interval)).isNone =
      false ↔ component.Suits interval := by
  constructor
  · intro htest
    obtain ⟨lengths, hlengths⟩ := Option.isSome_iff_exists.mp (Option.isNone_eq_false_iff.mp htest)
    obtain ⟨hfinal, hsettled⟩ := longestPaths?_eq_some hlengths
    rw [Lengths.isSettled_iff] at hsettled
    have htight : ∀ arc ∈ component.testArcs interval, ∀ x, lengths.at? arc.source = some x →
        ∃ y, lengths.at? arc.target = some y ∧ x + arc.weight ≤ y :=
      fun arc harc => hsettled arc (hclosed.within.subset_sweepOrder harc)
    obtain ⟨first, hfirst, _⟩ : ∃ x, lengths.at? 0 = some x ∧ 0 ≤ x :=
      hfinal ▸ Lengths.noShorter_settle _ _ 0 0
        (Lengths.at?_start.mpr ⟨rfl, Nat.succ_pos _, rfl⟩)
    refine ⟨fun member => (lengths.at? (component.node member)).getD 0, fun arc harc => ?_⟩
    obtain ⟨x, hx, _⟩ := htight ⟨0, component.node arc.source, 0⟩
      (List.mem_append_left _ (List.mem_map_of_mem (hclosed arc harc).1)) first hfirst
    obtain ⟨y, hy, hle⟩ := htight ⟨component.node arc.source, component.node arc.target,
        arc.edge.offsetAt interval⟩
      (List.mem_append_right _ (List.mem_map_of_mem harc)) x hx
    simp only at hx hy hle
    simpa [hx, hy] using hle
  · rintro ⟨value, hvalue⟩
    obtain ⟨potential, hpotential⟩ := hvalue.exists_potential hclosed
    cases hpaths : longestPaths? id (component.members.length + 1)
        (component.testArcs interval) with
    | some lengths => rfl
    | none =>
        obtain ⟨node, cycle, hcycle, hpos⟩ :=
          exists_cycle_of_longestPaths?_eq_none (Nat.succ_pos _) hclosed.within hpaths
        have := hpotential.totalWeight_cycle_le hcycle
        omega

/-- Latencies that add up to a word are offsets each. -/
theorem latency_lt_bound (hwords : (component.arcs.map (·.edge.latency)).sum < Word.count)
    {arc : LoopArc} (harc : arc ∈ component.arcs) : (arc.edge.latency : Int) < Offset.bound := by
  have hle : arc.edge.latency ≤ (component.arcs.map (·.edge.latency)).sum :=
    List.le_sum_of_mem (List.mem_map_of_mem harc)
  have hcount : (Word.count : Int) < Offset.bound := by decide
  omega

/-- The test finds out whether an interval suits, unless an arc spans too many slots. -/
theorem hasPositiveCycle_cases (hclosed : component.Closed)
    (hwords : (component.arcs.map (·.edge.latency)).sum < Word.count) (interval : Nat) :
    (component.hasPositiveCycle interval = .ok false ∧ component.Suits interval) ∨
      (component.hasPositiveCycle interval = .ok true ∧ ¬component.Suits interval) ∨
      (component.hasPositiveCycle interval = faulty .overflow ∧
        component.Outreaches interval) := by
  cases htest : component.hasPositiveCycle interval with
  | ok positive =>
      have hsuits := isNone_longestPaths?_eq_false hclosed interval
      rw [← hasPositiveCycle_eq_ok htest] at hsuits
      cases positive with
      | false => exact .inl ⟨rfl, hsuits.mp rfl⟩
      | true => exact .inr (.inl ⟨rfl, fun h => nomatch hsuits.mpr h⟩)
  | error failure =>
      obtain hsteps | ⟨_, _, hnone⟩ := Checked.bind_eq_error.mp htest
      · obtain ⟨arc, harc, hstep⟩ := Checked.mapM_eq_error hsteps
        have hspan : arc.edge.Outreaches interval := by
          by_contra hspan
          rw [DepEdge.minOffset_of_not_outreaches (latency_lt_bound hwords harc) hspan] at hstep
          cases hstep
        rw [DepEdge.minOffset_of_outreaches hspan] at hstep
        cases hstep
        exact .inr (.inr ⟨rfl, arc, harc, hspan⟩)
      · cases hnone

/-- The search ends with the first interval that suits, if one comes within its rounds and before
those at which an arc spans too many slots. -/
theorem firstInterval_cases (hclosed : component.Closed)
    (hwords : (component.arcs.map (·.edge.latency)).sum < Word.count) (rounds first : Nat) :
    (∃ found, component.firstInterval rounds first = .ok (some found) ∧ found < first + rounds ∧
      IsLeast {interval | first ≤ interval ∧ component.Suits interval} found) ∨
    (component.firstInterval rounds first = .ok none ∧
      ∀ interval, first ≤ interval → interval < first + rounds → ¬component.Suits interval) ∨
    (∃ reached, component.firstInterval rounds first = faulty .overflow ∧
      first ≤ reached ∧ reached < first + rounds ∧ component.Outreaches reached ∧
      ∀ interval, first ≤ interval → interval < reached → ¬component.Suits interval) := by
  induction rounds generalizing first with
  | zero => exact .inr (.inl ⟨rfl, fun interval hfirst hlast => by omega⟩)
  | succ rounds ih =>
      rw [firstInterval]
      rcases hasPositiveCycle_cases hclosed hwords first with
        ⟨htest, hsuits⟩ | ⟨htest, hlacks⟩ | ⟨htest, hspan⟩
      · rw [htest]
        exact .inl ⟨first, rfl, by omega, ⟨le_rfl, hsuits⟩, fun interval h => h.1⟩
      · have hrest : ∀ interval, first ≤ interval →
            (first + 1 ≤ interval → ¬component.Suits interval) → ¬component.Suits interval := by
          intro interval hfirst hlater
          rcases Nat.eq_or_lt_of_le hfirst with rfl | hlt
          · exact hlacks
          · exact hlater hlt
        rw [htest, Checked.ok_bind, if_pos rfl]
        rcases ih (first + 1) with ⟨found, hfound, hlast, hleast⟩ | ⟨hnone, hall⟩ |
          ⟨reached, hfault, hfirst, hlast, hspan, hall⟩
        · refine .inl ⟨found, hfound, by omega, ⟨by have := hleast.1.1; omega, hleast.1.2⟩,
            fun interval ⟨hfirst, hsuits⟩ => ?_⟩
          by_contra hlt
          exact hrest interval hfirst
            (fun hlater hsuits => hlt (hleast.2 ⟨hlater, hsuits⟩)) hsuits
        · exact .inr (.inl ⟨hnone, fun interval hfirst hlast =>
            hrest interval hfirst fun hlater => hall interval hlater (by omega)⟩)
        · exact .inr (.inr ⟨reached, hfault, by omega, by omega, hspan, fun interval hfirst hlt =>
            hrest interval hfirst fun hlater => hall interval hlater hlt⟩)
      · rw [htest]
        exact .inr (.inr ⟨first, rfl, le_rfl, by omega, hspan, fun interval _ _ => by omega⟩)

theorem intervalBound_eq_ok {bound : Nat} :
    component.intervalBound = .ok bound ↔
      (component.arcs.map (·.edge.latency)).sum < Word.count ∧
        bound = max (component.arcs.map (·.edge.latency)).sum 1 := by
  unfold intervalBound
  rw [Checked.bind_eq_ok]
  constructor
  · rintro ⟨total, htotal, hbound⟩
    obtain ⟨hlt, rfl⟩ := Word.sum_eq_ok.mp htotal
    exact ⟨hlt, Checked.pure_eq_ok.mp hbound⟩
  · rintro ⟨hlt, rfl⟩
    exact ⟨_, Word.sum_eq_ok.mpr ⟨hlt, rfl⟩, rfl⟩

end Component

end SlotScheduling
