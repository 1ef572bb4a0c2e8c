import SlotScheduling.Difference.System
import SlotScheduling.Proofs.Loops

/-!
# Adding constraints

A system only grows while constraints are added: its solutions are those that it
had before and that meet the new constraint as well.
-/

namespace SlotScheduling

/-- At a known interval every offset in range is the exact one. -/
theorem DepEdge.offset?_eq_offsetAt (edge : DepEdge) {interval : Nat} {offset? : Option Int}
    (h : edge.offset? (some interval) = .ok offset?) : offset? = some (edge.offsetAt interval) := by
  unfold DepEdge.offset? at h
  split at h
  · obtain ⟨offset, hoffset, rfl⟩ := Checked.map_eq_ok.mp h
    rw [DepEdge.minOffset_eq_ok hoffset]
  next hcarried =>
    have hdistance : edge.distance = 0 := by
      simpa [DepEdge.isLoopCarried] using hcarried
    cases h
    simp [DepEdge.offsetAt, hdistance]

/-- The distance between two slots that an edge with this offset asks for. -/
def DepEdge.Admits (edge : DepEdge) (offset gap : Int) : Prop :=
  if edge.isFixedTiming then gap = offset else offset ≤ gap

theorem DepEdge.Admits.le {edge : DepEdge} {offset gap : Int} (h : edge.Admits offset gap) :
    offset ≤ gap := by
  unfold Admits at h
  split at h
  · exact Int.le_of_eq h.symm
  · exact h

theorem DepEdge.Admits.eq {edge : DepEdge} {offset gap : Int} (h : edge.Admits offset gap)
    (hfixed : edge.isFixedTiming = true) : gap = offset := by
  rwa [Admits, if_pos hfixed] at h

/-- The term is a constant, or a variable of the system. -/
def Term.Owned (sys : ConstraintSystem) (term : Term) : Prop :=
  term.node ≤ sys.unknowns.size

namespace ConstraintSystem

/-- Every constraint is one between two different nodes of the system. -/
def Closed (sys : ConstraintSystem) : Prop :=
  ∀ arc ∈ sys.arcs, arc.source ≠ arc.target ∧
    arc.source ≤ sys.unknowns.size ∧ arc.target ≤ sys.unknowns.size

/-- The second system has the variables and the constraints of the first. -/
structure Extends (sys sys' : ConstraintSystem) : Prop where
  keepsUnits : sys'.unknowns = sys.unknowns
  arcs : sys.arcs ⊆ sys'.arcs
  satisfies : ∀ values, sys'.Satisfies values → sys.Satisfies values
  closed : sys.Closed → sys'.Closed

theorem Extends.refl (sys : ConstraintSystem) : sys.Extends sys :=
  ⟨rfl, fun _ h => h, fun _ h => h, fun h => h⟩

theorem Extends.trans {sys sys' sys'' : ConstraintSystem} (h : sys.Extends sys')
    (h' : sys'.Extends sys'') : sys.Extends sys'' where
  keepsUnits := h'.keepsUnits.trans h.keepsUnits
  arcs := fun _ hmem => h'.arcs (h.arcs hmem)
  satisfies := fun values hvalues => h.satisfies values (h'.satisfies values hvalues)
  closed := fun hclosed => h'.closed (h.closed hclosed)

theorem Extends.owned {sys sys' : ConstraintSystem} (h : sys.Extends sys') {term : Term}
    (hterm : term.Owned sys) : term.Owned sys' := by
  unfold Term.Owned at *
  rw [h.keepsUnits]
  exact hterm

variable {sys sys' : ConstraintSystem} {target source : Term} {weight : Int}

/-- A constraint on a single node is remembered if it does not hold, and any
other one becomes an arc. -/
theorem addGeq_cases (h : sys.addGeq target source weight = .ok sys') :
    (target.node = source.node ∧ ∃ violated, sys' = { sys with violated := violated }) ∨
      (target.node ≠ source.node ∧ sys' = { sys with
        arcs := ⟨source.node, target.node, weight + source.shift - target.shift⟩ ::
          sys.arcs }) := by
  obtain ⟨_, _, h⟩ := Checked.bind_eq_ok.mp h
  obtain ⟨_, _, h⟩ := Checked.bind_eq_ok.mp h
  obtain ⟨raised, hraised, h⟩ := Checked.bind_eq_ok.mp h
  obtain ⟨folded, hfolded, h⟩ := Checked.bind_eq_ok.mp h
  obtain rfl := (Offset.check_eq_ok.mp hraised).2
  obtain rfl := (Offset.check_eq_ok.mp hfolded).2
  split at h
  next hnode =>
    refine Or.inl ⟨hnode, ?_⟩
    split at h
    · cases h
      exact ⟨_, rfl⟩
    · cases h
      exact ⟨sys.violated, rfl⟩
  next hnode =>
    cases h
    exact Or.inr ⟨hnode, rfl⟩

theorem extends_addGeq (h : sys.addGeq target source weight = .ok sys')
    (htarget : target.Owned sys) (hsource : source.Owned sys) : sys.Extends sys' := by
  have hsatisfies : ∀ values, sys'.Satisfies values → sys.Satisfies values :=
    fun values hvalues => ((satisfies_addGeq h).mp hvalues).1
  rcases addGeq_cases h with ⟨_, violated, rfl⟩ | ⟨hnode, rfl⟩
  · exact ⟨rfl, fun _ h => h, hsatisfies, fun h => h⟩
  · refine ⟨rfl, List.subset_cons_self _ _, hsatisfies, fun hclosed => ?_⟩
    intro arc hmem
    rcases List.mem_cons.mp hmem with rfl | hmem
    · exact ⟨Ne.symm hnode, hsource, htarget⟩
    · exact hclosed arc hmem

theorem mem_arcs_addGeq (h : sys.addGeq target source weight = .ok sys')
    (hnode : target.node ≠ source.node) :
    ⟨source.node, target.node, weight + source.shift - target.shift⟩ ∈ sys'.arcs := by
  rcases addGeq_cases h with ⟨heq, _⟩ | ⟨_, rfl⟩
  · exact absurd heq hnode
  · exact List.mem_cons_self

theorem addEq_eq_ok (h : sys.addEq target source weight = .ok sys') :
    ∃ middle, sys.addGeq target source weight = .ok middle ∧
      middle.addGeq source target (-weight) = .ok sys' := by
  obtain ⟨middle, hmiddle, h⟩ := Checked.bind_eq_ok.mp h
  obtain ⟨negated, hnegated, h⟩ := Checked.bind_eq_ok.mp h
  obtain rfl := (Offset.check_eq_ok.mp hnegated).2
  exact ⟨middle, hmiddle, h⟩

theorem extends_addEq (h : sys.addEq target source weight = .ok sys')
    (htarget : target.Owned sys) (hsource : source.Owned sys) : sys.Extends sys' := by
  obtain ⟨middle, hmiddle, h⟩ := addEq_eq_ok h
  have hfirst := extends_addGeq hmiddle htarget hsource
  exact hfirst.trans (extends_addGeq h (hfirst.owned hsource) (hfirst.owned htarget))

theorem satisfies_addEq (h : sys.addEq target source weight = .ok sys')
    {values : Nat → Int} : sys'.Satisfies values ↔
      sys.Satisfies values ∧ target.eval values - source.eval values = weight := by
  obtain ⟨middle, hmiddle, h⟩ := addEq_eq_ok h
  rw [satisfies_addGeq h, satisfies_addGeq hmiddle, and_assoc]
  refine and_congr_right fun _ => ?_
  omega

theorem upperBound_eq_ok {term : Term} {bound : Int}
    (h : sys.upperBound term bound = .ok sys') :
    sys.addGeq (.const 0) term (-bound) = .ok sys' := by
  obtain ⟨negated, hnegated, h⟩ := Checked.bind_eq_ok.mp h
  obtain rfl := (Offset.check_eq_ok.mp hnegated).2
  exact h

theorem satisfies_lowerBound {term : Term} {bound : Int}
    (h : sys.lowerBound term bound = .ok sys') {values : Nat → Int} :
    sys'.Satisfies values ↔ sys.Satisfies values ∧ bound ≤ term.eval values := by
  rw [satisfies_addGeq h]
  simp [Term.eval]

theorem satisfies_upperBound {term : Term} {bound : Int}
    (h : sys.upperBound term bound = .ok sys') {values : Nat → Int} :
    sys'.Satisfies values ↔ sys.Satisfies values ∧ term.eval values ≤ bound := by
  rw [satisfies_addGeq (upperBound_eq_ok h)]
  simp [Term.eval]

theorem owned_const (value : Int) : (Term.const value).Owned sys := Nat.zero_le _

theorem extends_lowerBound {term : Term} {bound : Int}
    (h : sys.lowerBound term bound = .ok sys') (hterm : term.Owned sys) :
    sys.Extends sys' :=
  extends_addGeq h hterm (owned_const 0)

/-- The lower bound of a variable is an arc that starts at the constant node. -/
theorem exists_arc_of_lowerBound {index : Nat} {bound : Int} (hbound : 0 ≤ bound)
    (h : sys.lowerBound (.var index) bound = .ok sys') :
    ∃ arc ∈ sys'.arcs, arc.source = 0 ∧ 0 ≤ arc.weight := by
  refine ⟨_, mem_arcs_addGeq h (Nat.succ_ne_zero index), rfl, ?_⟩
  simpa [Term.shift] using hbound

theorem extends_upperBound {term : Term} {bound : Int}
    (h : sys.upperBound term bound = .ok sys') (hterm : term.Owned sys) :
    sys.Extends sys' :=
  extends_addGeq (upperBound_eq_ok h) (owned_const 0) hterm

theorem extends_addEdge {edge : DepEdge} {offset : Int}
    (h : sys.addEdge target source edge offset = .ok sys') (htarget : target.Owned sys)
    (hsource : source.Owned sys) : sys.Extends sys' := by
  unfold addEdge at h
  split at h
  · exact extends_addEq h htarget hsource
  · exact extends_addGeq h htarget hsource

theorem satisfies_addEdge {edge : DepEdge} {offset : Int}
    (h : sys.addEdge target source edge offset = .ok sys') {values : Nat → Int} :
    sys'.Satisfies values ↔ sys.Satisfies values ∧
      edge.Admits offset (target.eval values - source.eval values) := by
  unfold addEdge at h
  unfold DepEdge.Admits
  split at h
  next hfixed =>
    rw [if_pos hfixed]
    exact satisfies_addEq h
  next hfixed =>
    rw [if_neg hfixed]
    exact satisfies_addGeq h

theorem admits_of_addEdge {edge : DepEdge} {offset : Int}
    (h : sys.addEdge target source edge offset = .ok sys') {values : Nat → Int}
    (hvalues : sys'.Satisfies values) :
    edge.Admits offset (target.eval values - source.eval values) :=
  ((satisfies_addEdge h).mp hvalues).2

/-- An edge of fixed timing between different nodes is an arc in either direction. -/
theorem mem_arcs_of_fixedTiming {edge : DepEdge} {offset : Int}
    (h : sys.addEdge target source edge offset = .ok sys') (hfixed : edge.isFixedTiming = true)
    (hnode : target.node ≠ source.node) :
    ⟨source.node, target.node, offset + source.shift - target.shift⟩ ∈ sys'.arcs ∧
      ⟨target.node, source.node, -offset + target.shift - source.shift⟩ ∈ sys'.arcs := by
  rw [addEdge, if_pos hfixed] at h
  obtain ⟨middle, hmiddle, h⟩ := addEq_eq_ok h
  refine ⟨?_, mem_arcs_addGeq h (Ne.symm hnode)⟩
  have hmem := mem_arcs_addGeq hmiddle hnode
  rcases addGeq_cases h with ⟨_, _, rfl⟩ | ⟨_, rfl⟩
  · exact hmem
  · exact List.mem_cons_of_mem _ hmem

/-! ## Variables -/

theorem addVariable_cases (sys : ConstraintSystem) (unit : UnitId) :
    sys.addVariable unit = sys ∨
      sys.variableOf? unit = none ∧
        sys.addVariable unit = { sys with unknowns := sys.unknowns.push unit } := by
  unfold addVariable
  split
  · exact Or.inl rfl
  next hnone => exact Or.inr ⟨by simpa using hnone, rfl⟩

theorem satisfies_addVariable {unit : UnitId} {values : Nat → Int} :
    (sys.addVariable unit).Satisfies values ↔ sys.Satisfies values := by
  rcases sys.addVariable_cases unit with heq | ⟨_, heq⟩
  · rw [heq]
  · rw [heq]
    rfl

theorem closed_addVariable {unit : UnitId} (hclosed : sys.Closed) :
    (sys.addVariable unit).Closed := by
  rcases sys.addVariable_cases unit with heq | ⟨_, heq⟩
  · rwa [heq]
  · rw [heq]
    intro arc hmem
    obtain ⟨hne, hsource, htarget⟩ := hclosed arc hmem
    refine ⟨hne, ?_, ?_⟩ <;> simp only [Array.size_push] <;> omega

theorem arcs_addVariable (sys : ConstraintSystem) (unit : UnitId) :
    (sys.addVariable unit).arcs = sys.arcs := by
  rcases sys.addVariable_cases unit with heq | ⟨_, heq⟩ <;> rw [heq]

end ConstraintSystem

end SlotScheduling
