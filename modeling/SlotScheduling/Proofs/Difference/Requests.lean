import SlotScheduling.Proofs.Difference.Solutions

/-!
# Systems built by requests

A system that is built from nothing, variable by variable and request by
request, has the solutions that meet every request.  Its earliest slots are the
least of them, and words are found whenever they can be.
-/

namespace SlotScheduling

/-- What can be asked of the values of variables. -/
inductive Request
  | geq (target source : Term) (weight : Int)
  | eq (target source : Term) (weight : Int)
  | lower (term : Term) (bound : Int)
  | upper (term : Term) (bound : Int)
  deriving DecidableEq, Repr

instance (sys : ConstraintSystem) (term : Term) : Decidable (term.Owned sys) :=
  inferInstanceAs (Decidable (term.node ≤ sys.unknowns.size))

namespace Request

/-- Add the request to a system. -/
def apply (sys : ConstraintSystem) : Request → Checked ConstraintSystem
  | .geq target source weight => sys.addGeq target source weight
  | .eq target source weight => sys.addEq target source weight
  | .lower term bound => sys.lowerBound term bound
  | .upper term bound => sys.upperBound term bound

/-- The request is about constants and variables of the system. -/
def Owned (sys : ConstraintSystem) : Request → Prop
  | .geq target source _ => target.Owned sys ∧ source.Owned sys
  | .eq target source _ => target.Owned sys ∧ source.Owned sys
  | .lower term _ => term.Owned sys
  | .upper term _ => term.Owned sys

instance (sys : ConstraintSystem) (request : Request) : Decidable (request.Owned sys) :=
  match request with
  | .geq target source _ => inferInstanceAs (Decidable (target.Owned sys ∧ source.Owned sys))
  | .eq target source _ => inferInstanceAs (Decidable (target.Owned sys ∧ source.Owned sys))
  | .lower term _ => inferInstanceAs (Decidable (term.Owned sys))
  | .upper term _ => inferInstanceAs (Decidable (term.Owned sys))

/-- The values meet the request. -/
def Holds (values : Nat → Int) : Request → Prop
  | .geq target source weight => weight ≤ target.eval values - source.eval values
  | .eq target source weight => target.eval values - source.eval values = weight
  | .lower term bound => bound ≤ term.eval values
  | .upper term bound => term.eval values ≤ bound

/-- The request is a lower bound of a variable, and not a negative one. -/
def BoundsBelow (index : Nat) : Request → Prop
  | .geq (.var target) (.const source) weight => target = index ∧ 0 ≤ source + weight
  | .eq (.var target) (.const source) weight => target = index ∧ 0 ≤ source + weight
  | .lower (.var target) bound => target = index ∧ 0 ≤ bound
  | _ => False

variable {sys sys' : ConstraintSystem} {request : Request}

theorem extends_apply (h : request.apply sys = .ok sys') (howned : request.Owned sys) :
    sys.Extends sys' := by
  cases request with
  | geq target source weight => exact ConstraintSystem.extends_addGeq h howned.1 howned.2
  | eq target source weight => exact ConstraintSystem.extends_addEq h howned.1 howned.2
  | lower term bound => exact ConstraintSystem.extends_lowerBound h howned
  | upper term bound => exact ConstraintSystem.extends_upperBound h howned

theorem satisfies_apply (h : request.apply sys = .ok sys') {values : Nat → Int} :
    sys'.Satisfies values ↔ sys.Satisfies values ∧ request.Holds values := by
  cases request with
  | geq target source weight => exact ConstraintSystem.satisfies_addGeq h
  | eq target source weight => exact ConstraintSystem.satisfies_addEq h
  | lower term bound => exact ConstraintSystem.satisfies_lowerBound h
  | upper term bound => exact ConstraintSystem.satisfies_upperBound h

/-- A lower bound becomes an arc that leaves the constant node. -/
theorem exists_arc_of_boundsBelow {index : Nat} (hbound : request.BoundsBelow index)
    (h : request.apply sys = .ok sys') (howned : request.Owned sys) :
    ∃ arc ∈ sys'.arcs, arc.source = 0 ∧ arc.target = index + 1 ∧ 0 ≤ arc.weight := by
  have hgeq : ∀ {value weight : Int} {sys sys' : ConstraintSystem},
      sys.addGeq (.var index) (.const value) weight = .ok sys' → 0 ≤ value + weight →
      ∃ arc ∈ sys'.arcs, arc.source = 0 ∧ arc.target = index + 1 ∧ 0 ≤ arc.weight := by
    intro value weight sys sys' h hnonneg
    refine ⟨_, ConstraintSystem.mem_arcs_addGeq h (Nat.succ_ne_zero index), rfl, rfl, ?_⟩
    simp only [Term.shift]
    omega
  unfold BoundsBelow at hbound
  split at hbound
  next =>
    obtain ⟨rfl, hnonneg⟩ := hbound
    exact hgeq h hnonneg
  next =>
    obtain ⟨rfl, hnonneg⟩ := hbound
    obtain ⟨middle, hmiddle, h⟩ := ConstraintSystem.addEq_eq_ok h
    obtain ⟨arc, hmem, harc⟩ := hgeq hmiddle hnonneg
    have hmiddle := ConstraintSystem.extends_addGeq hmiddle howned.1 howned.2
    have hextends := ConstraintSystem.extends_addGeq h (hmiddle.owned howned.2)
      (hmiddle.owned howned.1)
    exact ⟨arc, hextends.arcs hmem, harc⟩
  next =>
    obtain ⟨rfl, hnonneg⟩ := hbound
    exact hgeq h (by omega)
  next => exact hbound.elim

end Request

/-- The system can be built from nothing by adding variables and these requests. -/
inductive Reached : List Request → ConstraintSystem → Prop
  | new : Reached [] {}
  | unknown {requests : List Request} {sys : ConstraintSystem} (unit : UnitId) :
      Reached requests sys → Reached requests (sys.addVariable unit)
  | request {requests : List Request} {sys sys' : ConstraintSystem} (request : Request) :
      Reached requests sys → request.Owned sys → request.apply sys = .ok sys' →
        Reached (request :: requests) sys'

namespace Reached

variable {requests : List Request} {sys : ConstraintSystem}

theorem closed (h : Reached requests sys) : sys.Closed := by
  induction h with
  | new => exact fun arc hmem => absurd hmem List.not_mem_nil
  | unknown unit _ ih => exact ConstraintSystem.closed_addVariable ih
  | request request _ howned happly ih =>
      exact (Request.extends_apply happly howned).closed ih

/-- The solutions of the system are the values that meet every request. -/
theorem satisfies_iff (h : Reached requests sys) {values : Nat → Int} :
    sys.Satisfies values ↔ ∀ request ∈ requests, request.Holds values := by
  induction h with
  | new => simp [ConstraintSystem.Satisfies]
  | unknown unit _ ih => rw [ConstraintSystem.satisfies_addVariable, ih]
  | request request _ howned happly ih =>
      rw [Request.satisfies_apply happly, ih, List.forall_mem_cons, and_comm]

/-- A request was added to some system, and what that gave is still there. -/
theorem exists_apply (h : Reached requests sys) {request : Request} (hmem : request ∈ requests) :
    ∃ before after : ConstraintSystem, request.Owned before ∧ request.apply before = .ok after ∧
      after.arcs ⊆ sys.arcs := by
  induction h with
  | new => exact absurd hmem List.not_mem_nil
  | unknown unit _ ih =>
      rw [ConstraintSystem.arcs_addVariable]
      exact ih hmem
  | request latest _ howned happly ih =>
      rcases List.mem_cons.mp hmem with rfl | hmem
      · exact ⟨_, _, howned, happly, List.Subset.refl _⟩
      · obtain ⟨before, after, howned', happly', hsubset⟩ := ih hmem
        exact ⟨before, after, howned', happly',
          fun _ harc => (Request.extends_apply happly howned).arcs (hsubset harc)⟩

theorem exists_arc (h : Reached requests sys) {index : Nat} {request : Request}
    (hmem : request ∈ requests) (hbound : request.BoundsBelow index) :
    ∃ arc ∈ sys.arcs, arc.source = 0 ∧ arc.target = index + 1 ∧ 0 ≤ arc.weight := by
  obtain ⟨_, _, howned, happly, hsubset⟩ := h.exists_apply hmem
  obtain ⟨arc, harc, hweight⟩ := Request.exists_arc_of_boundsBelow hbound happly howned
  exact ⟨arc, hsubset harc, hweight⟩

end Reached

/-- The sum of a slot and the weight of a constraint has 53 significant bits. -/
def ConstraintSystem.HasExactWeights (sys : ConstraintSystem) : Prop :=
  ∀ arc ∈ sys.arcs, arc.weight.natAbs + Word.count ≤ 2 ^ 53

instance (sys : ConstraintSystem) : Decidable sys.HasExactWeights :=
  inferInstanceAs (Decidable (∀ arc ∈ sys.arcs, arc.weight.natAbs + Word.count ≤ 2 ^ 53))

theorem ConstraintSystem.HasExactWeights.rooted {sys : ConstraintSystem}
    (h : sys.HasExactWeights) : Arc.Rooted sys.arcs := by
  intro arc hmem hsource
  have := h arc hmem
  exact ⟨arc, hmem, hsource, by omega⟩

/-- The earliest slots meet every request and are the least values that do.  If
every variable has a lower bound that is not negative, there are none exactly if
no words meet every request. -/
theorem earliest_correct {requests : List Request} {sys : ConstraintSystem}
    (hreached : Reached requests sys) (hexact : sys.HasExactWeights) :
    (∀ slots, sys.earliest = .ok slots →
      slots.map Prod.fst = sys.unknowns.toList ∧
      (∀ request ∈ requests, request.Holds (ConstraintSystem.valuesOf slots)) ∧
      ∀ values, (∀ request ∈ requests, request.Holds values) →
        ∀ index < sys.unknowns.size,
          ConstraintSystem.valuesOf slots index ≤ values index) ∧
    ((∀ index < sys.unknowns.size, ∃ request ∈ requests, request.BoundsBelow index) →
      ((∃ reason, sys.earliest = .error (.error (.infeasible reason))) ↔
        ¬∃ values : Nat → Int,
          (∀ index < sys.unknowns.size,
            0 ≤ values index ∧ values index < Word.count) ∧
          ∀ request ∈ requests, request.Holds values)) := by
  have hclosed := hreached.closed
  have hsmall : ∀ arc ∈ sys.arcs, arc.weight.natAbs ≤ 2 ^ 53 :=
    fun arc hmem => (Nat.le_add_right _ _).trans (hexact arc hmem)
  refine ⟨fun slots hslots => ?_, fun hbounded => ?_⟩
  · obtain ⟨_, hunits, _⟩ := ConstraintSystem.earliest_eq_ok hclosed hslots
    have hsatisfies := ConstraintSystem.satisfies_earliest hclosed hexact.rooted hslots
    refine ⟨hunits, hreached.satisfies_iff.mp hsatisfies, fun values hvalues index hindex => ?_⟩
    exact ConstraintSystem.earliest_le hclosed hexact.rooted
      (fun arc hmem => Significand.keep_of_natAbs_le (hsmall arc hmem)) hslots
      (hreached.satisfies_iff.mpr hvalues) hindex
  · constructor
    · rintro ⟨reason, hreason⟩ ⟨values, hwords, hvalues⟩
      have hlower : ∀ index < sys.unknowns.size,
          ∃ arc ∈ sys.arcs, arc.source = 0 ∧ arc.target = index + 1 ∧ 0 ≤ arc.weight := by
        intro index hindex
        obtain ⟨request, hmem, hbound⟩ := hbounded index hindex
        exact hreached.exists_arc hmem hbound
      obtain ⟨slots, hslots⟩ := ConstraintSystem.exists_earliest hclosed hsmall hlower
        (hreached.satisfies_iff.mpr hvalues) hwords
      rw [hslots] at hreason
      cases hreason
    · intro hnone
      rcases ConstraintSystem.earliest_cases hclosed with ⟨slots, hslots⟩ | hreason
      · refine absurd ⟨ConstraintSystem.valuesOf slots, ?_, ?_⟩ hnone
        · exact fun index hindex => ConstraintSystem.earliest_isWord hclosed hslots hindex
        · exact hreached.satisfies_iff.mp
            (ConstraintSystem.satisfies_earliest hclosed hexact.rooted hslots)
      · exact hreason

/-- Two variables that are at least two apart: within bounds that leave room for
that there are earliest slots, and within bounds that do not there are no words. -/
theorem earliest_correct_pair :
    (∀ request ∈ [Request.upper (.var 1) 9, .geq (.var 1) (.var 0) 2, .lower (.var 1) 0,
        .lower (.var 0) 3],
      request.Holds (ConstraintSystem.valuesOf [(5, 3), (7, 5)])) ∧
    ¬∃ values : Nat → Int,
      (∀ index < 2, 0 ≤ values index ∧ values index < Word.count) ∧
      ∀ request ∈ [Request.upper (.var 1) 4, .geq (.var 1) (.var 0) 2, .lower (.var 1) 0,
          .lower (.var 0) 3],
        request.Holds values := by
  have hstart : Reached [] ⟨#[5, 7], [], none⟩ := by
    simpa [ConstraintSystem.addVariable, ConstraintSystem.variableOf?] using
      (Reached.new.unknown 5).unknown 7
  have hbounded : Reached [.lower (.var 1) 0, .lower (.var 0) 3]
      ⟨#[5, 7], [⟨0, 2, 0⟩, ⟨0, 1, 3⟩], none⟩ :=
    (hstart.request (.lower (.var 0) 3) (by decide) rfl).request (.lower (.var 1) 0)
      (by decide) rfl
  have hapart := hbounded.request (.geq (.var 1) (.var 0) 2) (by decide) rfl
  have hwide := hapart.request (.upper (.var 1) 9) (by decide) rfl
  have hnarrow := hapart.request (.upper (.var 1) 4) (by decide) rfl
  constructor
  · exact ((earliest_correct hwide (by decide)).1 [(5, 3), (7, 5)] (by rfl)).2.1
  · refine ((earliest_correct hnarrow (by decide)).2 ?_).mp ⟨_, by rfl⟩
    intro index hindex
    have hcases : index = 0 ∨ index = 1 := by
      change index < 2 at hindex
      omega
    rcases hcases with rfl | rfl
    · exact ⟨.lower (.var 0) 3, by simp, rfl, by decide⟩
    · exact ⟨.lower (.var 1) 0, by simp, rfl, by decide⟩

end SlotScheduling
