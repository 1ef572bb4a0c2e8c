import SlotScheduling.Proofs.Difference.Extremes
import SlotScheduling.Proofs.Difference.Requests

/-!
# The latest solution of a system

The latest slots are negated longest paths against the constraints.  They are
the greatest values that meet every request, and with an upper bound for every
variable they are found whenever some words meet them all: then no path against
the constraints is too long to be negated.
-/

namespace SlotScheduling

namespace Request

/-- The request is an upper bound of a variable, and too small for more than 32 bits. -/
def BoundsAbove (index : Nat) : Request → Prop
  | .geq (.const target) (.var source) weight => source = index ∧ target - weight < Word.count
  | .eq (.const target) (.var source) weight => source = index ∧ target - weight < Word.count
  | .eq (.var target) (.const source) weight => target = index ∧ source + weight < Word.count
  | .upper (.var target) bound => target = index ∧ bound < Word.count
  | _ => False

variable {sys sys' : ConstraintSystem} {request : Request} {index : Nat}

theorem exists_arc_of_addGeq_const {value weight : Int}
    (h : sys.addGeq (.const value) (.var index) weight = .ok sys')
    (hbound : value - weight < Word.count) :
    ∃ arc ∈ sys'.arcs, arc.source = index + 1 ∧ arc.target = 0 ∧ -Word.count < arc.weight := by
  refine ⟨_, ConstraintSystem.mem_arcs_addGeq h (Nat.succ_ne_zero index).symm, rfl, rfl, ?_⟩
  simp only [Term.shift]
  omega

/-- An upper bound becomes an arc that ends at the constant node. -/
theorem exists_arc_of_boundsAbove (hbound : request.BoundsAbove index)
    (h : request.apply sys = .ok sys') (howned : request.Owned sys) :
    ∃ arc ∈ sys'.arcs, arc.source = index + 1 ∧ arc.target = 0 ∧ -Word.count < arc.weight := by
  unfold BoundsAbove at hbound
  split at hbound
  next =>
    obtain ⟨rfl, hbound⟩ := hbound
    exact exists_arc_of_addGeq_const h hbound
  next =>
    obtain ⟨rfl, hbound⟩ := hbound
    obtain ⟨middle, hmiddle, h⟩ := ConstraintSystem.addEq_eq_ok h
    obtain ⟨arc, hmem, harc⟩ := exists_arc_of_addGeq_const hmiddle hbound
    have hmiddle := ConstraintSystem.extends_addGeq hmiddle howned.1 howned.2
    have hextends := ConstraintSystem.extends_addGeq h (hmiddle.owned howned.2)
      (hmiddle.owned howned.1)
    exact ⟨arc, hextends.arcs hmem, harc⟩
  next =>
    obtain ⟨rfl, hbound⟩ := hbound
    obtain ⟨middle, _, h⟩ := ConstraintSystem.addEq_eq_ok h
    exact exists_arc_of_addGeq_const h (by omega)
  next =>
    obtain ⟨rfl, hbound⟩ := hbound
    exact exists_arc_of_addGeq_const (ConstraintSystem.upperBound_eq_ok h) (by omega)
  next => exact hbound.elim

end Request

/-- Every variable has an upper bound within the slots. -/
def ConstraintSystem.BoundedAbove (sys : ConstraintSystem) : Prop :=
  ∀ index < sys.unknowns.size,
    ∃ arc ∈ sys.arcs, arc.source = index + 1 ∧ arc.target = 0 ∧ -Word.count < arc.weight

theorem Reached.boundedAbove {requests : List Request} {sys : ConstraintSystem}
    (h : Reached requests sys)
    (hbounded : ∀ index < sys.unknowns.size, ∃ request ∈ requests, request.BoundsAbove index) :
    sys.BoundedAbove := by
  intro index hindex
  obtain ⟨request, hmem, hbound⟩ := hbounded index hindex
  obtain ⟨_, _, howned, happly, hsubset⟩ := h.exists_apply hmem
  obtain ⟨arc, harc, hends⟩ := Request.exists_arc_of_boundsAbove hbound happly howned
  exact ⟨arc, hsubset harc, hends⟩

namespace Lengths

variable {nodes : Nat} {arcs : List Arc} {lengths : Lengths}

/-- A node is no further away than the arc that leads there from the first one. -/
theorem lt_of_bounded
    (hpaths : longestPaths? Significand.keep nodes (arcs.map Arc.rounded) = some lengths)
    (hnodes : 0 < nodes) {arc : Arc} (hmem : arc ∈ arcs) (hsource : arc.source = 0)
    (hweight : -Word.count < arc.weight) {x : Int} (hx : lengths.at? arc.target = some x) :
    -Word.count < x := by
  obtain ⟨_, hsettled⟩ := longestPaths?_eq_some hpaths
  obtain ⟨first, hfirst, hnonneg⟩ := at?_zero_of_longestPaths? hnodes hpaths
  have hrounded : arc.rounded ∈ Arc.sweepOrder nodes (arcs.map Arc.rounded) :=
    Arc.mem_sweepOrder.mpr ⟨List.mem_map_of_mem hmem, hsource.trans_lt hnodes⟩
  obtain ⟨x', hx', hle⟩ := isSettled_iff.mp hsettled arc.rounded hrounded first
    (by rw [← hfirst]; exact congrArg _ hsource)
  obtain rfl : x' = x := Option.some.inj (hx'.symm.trans hx)
  unfold Word.count at hweight ⊢
  have hkept : -(2 ^ 32) + 1 ≤ Significand.keep arc.weight :=
    Significand.keepsUpTo_keep.le_keep _ _ (by omega) (by omega) (by omega)
  have hsum : -(2 ^ 32) + 1 ≤ Significand.keep (first + arc.rounded.weight) :=
    Significand.keepsUpTo_keep.le_keep _ _ (by omega) (by omega)
      (by simp only [Arc.rounded]; omega)
  omega

end Lengths

namespace ConstraintSystem

variable {sys : ConstraintSystem}

theorem HasExactWeights.light (h : sys.HasExactWeights) : Arc.Light sys.arcs := by
  intro arc hmem
  have := h arc hmem
  omega

theorem keptArcs_reversed (hclosed : sys.Closed) :
    sys.keptArcs.map Arc.reverse = (sys.arcs.map Arc.reverse).map Arc.rounded := by
  rw [keptArcs_eq hclosed, List.map_map, List.map_map]
  rfl

/-- No node is as far against the constraints as all slots together. -/
theorem lt_of_boundedAbove (hbounded : sys.BoundedAbove) {lengths : Lengths}
    (hpaths : longestPaths? Significand.keep (sys.unknowns.size + 1)
      ((sys.arcs.map Arc.reverse).map Arc.rounded) = some lengths)
    {node : Nat} {x : Int} (hx : lengths.at? node = some x) : -Word.count < x := by
  have hlt := Lengths.at?_lt hx
  rw [Lengths.size_of_longestPaths? hpaths] at hlt
  cases node with
  | zero =>
      obtain ⟨first, hfirst, hnonneg⟩ := Lengths.at?_zero_of_longestPaths? (by omega) hpaths
      obtain rfl : first = x := Option.some.inj (hfirst.symm.trans hx)
      exact lt_of_lt_of_le (by decide) hnonneg
  | succ index =>
      obtain ⟨arc, hmem, hsource, htarget, hweight⟩ := hbounded index (by omega)
      have hx : lengths.at? arc.source = some x := hsource ▸ hx
      exact Lengths.lt_of_bounded hpaths (by omega) (List.mem_map_of_mem hmem) htarget hweight hx

theorem exists_neg_clampLength {x : Int} (hlow : -Word.count < x) :
    ∃ y, Offset.neg (clampLength x) = .ok y := by
  refine ⟨_, Offset.check_eq_ok.mpr ⟨?_, rfl⟩⟩
  unfold clampLength Offset.bound
  unfold Word.count at hlow
  omega

/-- With upper bounds, the only answers are slots and that there is no solution. -/
theorem latest_cases (hclosed : sys.Closed) (hbounded : sys.BoundedAbove) :
    (∃ slots, sys.latest = .ok slots) ∨
      ∃ reason, sys.latest = .error (.error (.infeasible reason)) := by
  cases hviolated : sys.violated with
  | some reason =>
      exact Or.inr ⟨reason, by simp only [latest, pathLengths, hviolated]; rfl⟩
  | none =>
      have hwithin := Arc.within_map_rounded (within_reversed hclosed)
      unfold latest
      rw [keptArcs_reversed hclosed]
      rcases pathLengths_of_within hwithin hviolated with
        ⟨lengths, hpaths, hlengths⟩ | ⟨_, reason, hreason⟩
      · rw [hlengths, Checked.ok_bind]
        generalize hvalue : (fun node => _ : Nat → Checked (Option Int)) = value?
        have hread : ∀ node, ∃ value, value? node = .ok value := by
          intro node
          rw [← hvalue]
          cases hx : lengths.at? node with
          | none => exact ⟨none, by simp only [hx]; rfl⟩
          | some x =>
              obtain ⟨y, hy⟩ := exists_neg_clampLength (lt_of_boundedAbove hbounded hpaths hx)
              exact ⟨some y, by simp only [hx, hy]; rfl⟩
        cases hslots : sys.readSlots value? with
        | ok slots => exact Or.inl ⟨slots, rfl⟩
        | error failure =>
            obtain ⟨reason, rfl⟩ := readSlots_eq_error hread hslots
            exact Or.inr ⟨reason, rfl⟩
      · rw [hreason]
        exact Or.inr ⟨reason, rfl⟩

theorem isPotential_reversed (hclosed : sys.Closed) {values : Nat → Int}
    (hvalues : sys.Satisfies values) :
    Arc.IsPotential (sys.arcs.map Arc.reverse) fun node => -sys.valueAt values node := by
  intro reversed hreversed
  obtain ⟨arc, hmem, rfl⟩ := List.mem_map.mp hreversed
  have := isPotential_valueAt hclosed hvalues arc hmem
  simp only [Arc.reverse]
  omega

/-- Against the constraints between words, no path is longer than zero, and none
that is longest shorter than all slots together. -/
theorem grounded_reversed (hclosed : sys.Closed) (hexact : sys.HasExactWeights)
    (hbounded : sys.BoundedAbove) :
    Arc.Grounded (sys.unknowns.size + 1) (1 - Word.count) 0 (2 ^ 53)
      (sys.arcs.map Arc.reverse) where
  within := within_reversed hclosed
  reached := by
    intro node hpos hlt
    obtain ⟨index, rfl⟩ := Nat.exists_eq_succ_of_ne_zero hpos.ne'
    obtain ⟨arc, hmem, hsource, htarget, hweight⟩ := hbounded index (by omega)
    exact ⟨arc.reverse, List.mem_map_of_mem hmem, htarget, hsource, by
      simp only [Arc.reverse]
      omega⟩
  low_nonpos := by decide
  high_nonneg := le_rfl
  low_ge := by decide
  high_le := by decide
  weights := by
    intro reversed hreversed
    obtain ⟨arc, hmem, rfl⟩ := List.mem_map.mp hreversed
    have := hexact arc hmem
    simp only [Arc.reverse]
    unfold Word.count at *
    omega

/-- Slots are found if every variable has an upper bound, and some words are a
solution. -/
theorem exists_latest (hclosed : sys.Closed) (hexact : sys.HasExactWeights)
    (hbounded : sys.BoundedAbove) {values : Nat → Int} (hvalues : sys.Satisfies values)
    (hwords : ∀ index < sys.unknowns.size, 0 ≤ values index ∧ values index < Word.count) :
    ∃ slots, sys.latest = .ok slots := by
  have hsmall : ∀ arc ∈ sys.arcs, arc.weight.natAbs ≤ 2 ^ 53 :=
    fun arc hmem => (Nat.le_add_right _ _).trans (hexact arc hmem)
  obtain ⟨lengths, hpaths, hreached⟩ := exists_longestPaths? Significand.keepsUpTo_keep
    (by omega) (grounded_reversed hclosed hexact hbounded) (isPotential_reversed hclosed hvalues)
    rfl fun node => by have := valueAt_isWord hwords node; omega
  have hlengths : sys.pathLengths (sys.keptArcs.map Arc.reverse) = .ok lengths := by
    rw [keptArcs_eq hclosed, rounded_eq_self hsmall]
    rcases pathLengths_of_within (within_reversed hclosed) hvalues.1 with
      ⟨lengths', hpaths', hlengths⟩ | ⟨hnone, _⟩
    · rw [hpaths] at hpaths'
      rw [hlengths, Option.some.inj hpaths']
    · rw [hpaths] at hnone
      cases hnone
  rw [latest, hlengths, Checked.ok_bind]
  refine exists_readSlots fun index hindex => ?_
  obtain ⟨x, hx, hlow, hhigh⟩ := hreached (index + 1) (by omega)
  unfold Word.count at hlow
  have hclamp : clampLength x = x := by
    unfold clampLength Offset.bound
    omega
  have hneg : Offset.neg x = .ok (-x) :=
    Offset.check_eq_ok.mpr ⟨by unfold Offset.bound; omega, rfl⟩
  refine ⟨(-x).toNat, by unfold Word.count; omega, ?_⟩
  simp only [hx, hclamp, hneg, Int.toNat_of_nonneg (show 0 ≤ -x by omega)]
  rfl

end ConstraintSystem

/-- The latest slots meet every request and are the greatest values that do.  If
every variable has an upper bound that is a word, there are none exactly if no
words meet every request. -/
theorem latest_correct {requests : List Request} {sys : ConstraintSystem}
    (hreached : Reached requests sys) (hexact : sys.HasExactWeights) :
    (∀ slots, sys.latest = .ok slots →
      slots.map Prod.fst = sys.unknowns.toList ∧
      (∀ request ∈ requests, request.Holds (ConstraintSystem.valuesOf slots)) ∧
      ∀ values, (∀ request ∈ requests, request.Holds values) →
        ∀ index < sys.unknowns.size,
          values index ≤ ConstraintSystem.valuesOf slots index) ∧
    ((∀ index < sys.unknowns.size, ∃ request ∈ requests, request.BoundsAbove index) →
      ((∃ reason, sys.latest = .error (.error (.infeasible reason))) ↔
        ¬∃ values : Nat → Int,
          (∀ index < sys.unknowns.size,
            0 ≤ values index ∧ values index < Word.count) ∧
          ∀ request ∈ requests, request.Holds values)) := by
  have hclosed := hreached.closed
  refine ⟨fun slots hslots => ?_, fun hbounded => ?_⟩
  · obtain ⟨_, hunits, _⟩ := ConstraintSystem.latest_eq_ok hclosed hslots
    obtain ⟨hsatisfies, hgreatest⟩ :=
      ConstraintSystem.latest_greatest hclosed hexact.light hslots
    exact ⟨hunits, hreached.satisfies_iff.mp hsatisfies,
      fun values hvalues => hgreatest values (hreached.satisfies_iff.mpr hvalues)⟩
  · have habove := hreached.boundedAbove hbounded
    constructor
    · rintro ⟨reason, hreason⟩ ⟨values, hwords, hvalues⟩
      obtain ⟨slots, hslots⟩ := ConstraintSystem.exists_latest hclosed hexact habove
        (hreached.satisfies_iff.mpr hvalues) hwords
      rw [hslots] at hreason
      cases hreason
    · intro hnone
      rcases ConstraintSystem.latest_cases hclosed habove with ⟨slots, hslots⟩ | hreason
      · refine absurd ⟨ConstraintSystem.valuesOf slots, fun index hindex => ?_, ?_⟩ hnone
        · exact ⟨ConstraintSystem.valuesOf_nonneg slots index,
            ConstraintSystem.latest_isWord hclosed hslots hindex⟩
        · exact hreached.satisfies_iff.mp
            (ConstraintSystem.latest_greatest hclosed hexact.light hslots).1
      · exact hreason

/-- Two variables that are at least two apart: below upper bounds that leave room
for that there are latest slots, and below upper bounds that do not there are no
words. -/
theorem latest_correct_pair :
    (∀ request ∈ [Request.upper (.var 0) 6, .geq (.var 1) (.var 0) 2, .upper (.var 1) 7],
      request.Holds (ConstraintSystem.valuesOf [(5, 5), (7, 7)])) ∧
    ¬∃ values : Nat → Int,
      (∀ index < 2, 0 ≤ values index ∧ values index < Word.count) ∧
      ∀ request ∈ [Request.upper (.var 0) 6, .geq (.var 1) (.var 0) 2, .upper (.var 1) 1],
        request.Holds values := by
  have hstart : Reached [] ⟨#[5, 7], [], none⟩ := by
    simpa [ConstraintSystem.addVariable, ConstraintSystem.variableOf?] using
      (Reached.new.unknown 5).unknown 7
  have hwide := ((hstart.request (.upper (.var 1) 7) (by decide) rfl).request
    (.geq (.var 1) (.var 0) 2) (by decide) rfl).request (.upper (.var 0) 6) (by decide) rfl
  have hnarrow := ((hstart.request (.upper (.var 1) 1) (by decide) rfl).request
    (.geq (.var 1) (.var 0) 2) (by decide) rfl).request (.upper (.var 0) 6) (by decide) rfl
  constructor
  · exact ((latest_correct hwide (by decide)).1 [(5, 5), (7, 7)] (by rfl)).2.1
  · refine ((latest_correct hnarrow (by decide)).2 ?_).mp ⟨_, by rfl⟩
    intro index hindex
    have hcases : index = 0 ∨ index = 1 := by
      change index < 2 at hindex
      omega
    rcases hcases with rfl | rfl
    · exact ⟨.upper (.var 0) 6, by simp, rfl, by decide⟩
    · exact ⟨.upper (.var 1) 1, by simp, rfl, by decide⟩

end SlotScheduling
