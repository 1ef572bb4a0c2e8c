import Mathlib.Data.Finset.Card
import Mathlib.Data.Finset.Range
import Mathlib.Tactic.Linarith
import SlotScheduling.Difference.LongestPath

/-!
# Walks in a weighted graph

A walk is a list of arcs, each of which starts where the one before it ends.
Two facts about walks decide what relaxation can find.  An assignment to the
nodes that grows along every arc by at least its weight bounds the weight of
every walk.  And where no closed walk has a positive weight, a walk that is
longer than the number of nodes can lose a cycle without losing weight.
-/

namespace SlotScheduling.Arc

def totalWeight (walk : List Arc) : Int := (walk.map (·.weight)).sum

/-- The arcs lead from the first node to the last one. -/
def IsWalk (arcs : List Arc) : Nat → List Arc → Nat → Prop
  | first, [], last => first = last
  | first, arc :: rest, last =>
    arc ∈ arcs ∧ arc.source = first ∧ IsWalk arcs arc.target rest last

/-- Along every arc the values grow by at least its weight. -/
def IsPotential (arcs : List Arc) (value : Nat → Int) : Prop :=
  ∀ arc ∈ arcs, value arc.source + arc.weight ≤ value arc.target

/-- Every arc joins two of the first `nodes` nodes. -/
def Within (nodes : Nat) (arcs : List Arc) : Prop :=
  ∀ arc ∈ arcs, arc.source < nodes ∧ arc.target < nodes

@[simp] theorem totalWeight_nil : totalWeight [] = 0 := rfl

@[simp] theorem totalWeight_cons (arc : Arc) (walk : List Arc) :
    totalWeight (arc :: walk) = arc.weight + totalWeight walk := by
  simp [totalWeight]

@[simp] theorem totalWeight_append (walk more : List Arc) :
    totalWeight (walk ++ more) = totalWeight walk + totalWeight more := by
  simp [totalWeight]

variable {arcs : List Arc}

theorem isWalk_append {first last : Nat} {walk more : List Arc} :
    IsWalk arcs first (walk ++ more) last ↔
      ∃ middle, IsWalk arcs first walk middle ∧ IsWalk arcs middle more last := by
  induction walk generalizing first with
  | nil => simp [IsWalk]
  | cons arc rest ih =>
      simp only [List.cons_append, IsWalk, ih]
      constructor
      · rintro ⟨hmem, hsource, middle, hrest, hmore⟩
        exact ⟨middle, ⟨hmem, hsource, hrest⟩, hmore⟩
      · rintro ⟨middle, ⟨hmem, hsource, hrest⟩, hmore⟩
        exact ⟨hmem, hsource, middle, hrest, hmore⟩

theorem IsWalk.snoc {first : Nat} {walk : List Arc} {arc : Arc}
    (hwalk : IsWalk arcs first walk arc.source) (hmem : arc ∈ arcs) :
    IsWalk arcs first (walk ++ [arc]) arc.target :=
  isWalk_append.mpr ⟨arc.source, hwalk, hmem, rfl, rfl⟩

theorem IsWalk.last_unique {first last other : Nat} {walk : List Arc}
    (hwalk : IsWalk arcs first walk last) (hother : IsWalk arcs first walk other) :
    last = other := by
  induction walk generalizing first with
  | nil => exact hwalk.symm.trans hother
  | cons arc rest ih => exact ih hwalk.2.2 hother.2.2

theorem IsWalk.last_lt {nodes first last : Nat} {walk : List Arc}
    (hwithin : Within nodes arcs) (hfirst : first < nodes)
    (hwalk : IsWalk arcs first walk last) : last < nodes := by
  induction walk generalizing first with
  | nil =>
      cases hwalk
      exact hfirst
  | cons arc rest ih =>
      obtain ⟨hmem, _, hrest⟩ := hwalk
      exact ih (hwithin arc hmem).2 hrest

/-- A potential bounds the weight of every walk by the difference of its ends. -/
theorem IsPotential.totalWeight_le {value : Nat → Int}
    (hvalue : IsPotential arcs value) {first last : Nat} {walk : List Arc}
    (hwalk : IsWalk arcs first walk last) :
    totalWeight walk ≤ value last - value first := by
  induction walk generalizing first with
  | nil =>
      cases hwalk
      simp
  | cons arc rest ih =>
      obtain ⟨hmem, hsource, hrest⟩ := hwalk
      have harc := hvalue arc hmem
      have hrest := ih hrest
      rw [hsource] at harc
      rw [totalWeight_cons]
      omega

theorem IsPotential.totalWeight_cycle_le {value : Nat → Int}
    (hvalue : IsPotential arcs value) {node : Nat} {cycle : List Arc}
    (hcycle : IsWalk arcs node cycle node) : totalWeight cycle ≤ 0 := by
  have := hvalue.totalWeight_le hcycle
  omega

/-! ## Cutting cycles -/

theorem IsWalk.exists_at {first last : Nat} {walk : List Arc}
    (hwalk : IsWalk arcs first walk last) (k : Nat) :
    ∃ node, IsWalk arcs first (walk.take k) node ∧
      IsWalk arcs node (walk.drop k) last := by
  rw [← List.take_append_drop k walk] at hwalk
  exact isWalk_append.mp hwalk

/-- A walk with as many arcs as there are nodes meets some node twice. -/
theorem IsWalk.exists_cycle {nodes first last : Nat} {walk : List Arc}
    (hwithin : Within nodes arcs) (hfirst : first < nodes)
    (hwalk : IsWalk arcs first walk last) (hlong : nodes ≤ walk.length) :
    ∃ node before cycle after,
      walk = before ++ cycle ++ after ∧ cycle ≠ [] ∧
      IsWalk arcs first before node ∧ IsWalk arcs node cycle node ∧
      IsWalk arcs node after last := by
  choose node hbefore hafter using hwalk.exists_at
  have hcard : (Finset.range nodes).card < (Finset.range (walk.length + 1)).card := by
    simp only [Finset.card_range]
    omega
  obtain ⟨i, hi, j, hj, hne, heq⟩ :=
    Finset.exists_ne_map_eq_of_card_lt_of_maps_to hcard (f := node)
      (fun k _ => Finset.mem_coe.mpr
        (Finset.mem_range.mpr ((hbefore k).last_lt hwithin hfirst)))
  wlog hij : i < j generalizing i j
  · exact this j hj i hi hne.symm heq.symm (by omega)
  rw [Finset.mem_range] at hj
  have hsplit : walk.take j = walk.take i ++ (walk.drop i).take (j - i) := by
    rw [← List.take_add]
    congr 1
    omega
  have hjoined := hbefore j
  rw [hsplit] at hjoined
  obtain ⟨middle, hwalkBefore, hcycle⟩ := isWalk_append.mp hjoined
  have hmiddle : middle = node i := hwalkBefore.last_unique (hbefore i)
  rw [hmiddle, ← heq] at hcycle
  refine ⟨node i, walk.take i, (walk.drop i).take (j - i), walk.drop j, ?_, ?_,
    hbefore i, hcycle, heq ▸ hafter j⟩
  · rw [← hsplit, List.take_append_drop]
  · intro hnil
    have hlength := congrArg List.length hnil
    simp only [List.length_take, List.length_drop, List.length_nil] at hlength
    omega

/-- Where no closed walk has a positive weight, fewer arcs than there are nodes
are enough for the weight of any walk. -/
theorem IsWalk.exists_short {nodes first last : Nat} {walk : List Arc}
    (hwithin : Within nodes arcs) (hfirst : first < nodes)
    (hcycles : ∀ node cycle, IsWalk arcs node cycle node → totalWeight cycle ≤ 0)
    (hwalk : IsWalk arcs first walk last) :
    ∃ short, IsWalk arcs first short last ∧ short.length < nodes ∧
      totalWeight walk ≤ totalWeight short := by
  induction hlength : walk.length using Nat.strong_induction_on generalizing walk with
  | _ length ih =>
      by_cases hshort : walk.length < nodes
      · exact ⟨walk, hwalk, hshort, le_refl _⟩
      · obtain ⟨node, before, cycle, after, rfl, hne, hbefore, hcycle, hafter⟩ :=
          hwalk.exists_cycle hwithin hfirst (by omega)
        have hcut : IsWalk arcs first (before ++ after) last :=
          isWalk_append.mpr ⟨node, hbefore, hafter⟩
        have hpos : 0 < cycle.length := List.length_pos_of_ne_nil hne
        have hless : (before ++ after).length < length := by
          rw [← hlength]
          simp only [List.length_append]
          omega
        obtain ⟨short, hwalkShort, hlengthShort, hweight⟩ := ih _ hless hcut rfl
        refine ⟨short, hwalkShort, hlengthShort, le_trans ?_ hweight⟩
        have hloss := hcycles node cycle hcycle
        simp only [totalWeight_append]
        omega

end SlotScheduling.Arc
