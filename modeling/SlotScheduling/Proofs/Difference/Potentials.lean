import Mathlib.Algebra.BigOperators.Group.Finset.Basic
import Mathlib.Algebra.Order.BigOperators.Group.Finset
import SlotScheduling.Proofs.Difference.LongestPaths

/-!
# Potentials

Where no simple closed walk has a positive weight, there are values that grow along every arc by at
least its weight, and none is larger than the weight of some simple walk.  A simple walk comes to no
node twice, so what the arcs into a node weigh at most counts once in its weight.
-/

namespace SlotScheduling.Arc

variable {arcs walk : List Arc} {nodes first last : Nat}

/-- The walk comes to no node twice. -/
def IsSimple (walk : List Arc) : Prop := (walk.map (·.target)).Nodup

theorem IsWalk.subset (h : IsWalk arcs first walk last) : walk ⊆ arcs := by
  induction walk generalizing first with
  | nil => exact List.nil_subset _
  | cons arc rest ih => exact List.cons_subset.mpr ⟨h.1, ih h.2.2⟩

/-- A walk that comes to some node twice takes a cycle, and not with its first arc. -/
theorem IsWalk.exists_repeat (h : IsWalk arcs first walk last) (hrepeats : ¬IsSimple walk) :
    ∃ node before cycle after, walk = before ++ cycle ++ after ∧ before ≠ [] ∧ cycle ≠ [] ∧
      IsWalk arcs first before node ∧ IsWalk arcs node cycle node ∧
      IsWalk arcs node after last := by
  induction walk generalizing first with
  | nil => exact absurd List.nodup_nil hrepeats
  | cons arc rest ih =>
      obtain ⟨hmem, hsource, hrest⟩ := h
      have hfirst : IsWalk arcs first [arc] arc.target := ⟨hmem, hsource, rfl⟩
      by_cases hsimple : IsSimple rest
      · have hagain : arc.target ∈ rest.map (·.target) := by
          by_contra hfresh
          exact hrepeats (List.nodup_cons.mpr ⟨hfresh, hsimple⟩)
        obtain ⟨back, hback, htarget⟩ := List.mem_map.mp hagain
        obtain ⟨around, after, rfl⟩ := List.append_of_mem hback
        obtain ⟨middle, haround, hmemBack, hsourceBack, hafter⟩ := isWalk_append.mp hrest
        rw [htarget] at hafter
        refine ⟨arc.target, [arc], around ++ [back], after, by simp, by simp, by simp, hfirst, ?_,
          hafter⟩
        exact isWalk_append.mpr ⟨middle, haround, hmemBack, hsourceBack, htarget⟩
      · obtain ⟨node, before, cycle, after, rfl, -, hne, hbefore, hcycle, hafter⟩ :=
          ih hrest hsimple
        exact ⟨node, arc :: before, cycle, after, by simp, by simp, hne,
          ⟨hmem, hsource, hbefore⟩, hcycle, hafter⟩

section

variable (hcycles : ∀ node cycle, IsWalk arcs node cycle node → IsSimple cycle →
  totalWeight cycle ≤ 0)

include hcycles

/-- Simple closed walks decide about all closed walks. -/
theorem IsWalk.totalWeight_closed_le {node : Nat} (h : IsWalk arcs node walk node) :
    totalWeight walk ≤ 0 := by
  induction hlength : walk.length using Nat.strong_induction_on generalizing walk node with
  | _ length ih =>
      by_cases hsimple : IsSimple walk
      · exact hcycles node walk h hsimple
      · obtain ⟨middle, before, cycle, after, rfl, hbefore, hcycle, hwalk, hwalkCycle, hrest⟩ :=
          h.exists_repeat hsimple
        have hposBefore := List.length_pos_of_ne_nil hbefore
        have hposCycle := List.length_pos_of_ne_nil hcycle
        simp only [List.length_append] at hlength
        have hinner := ih cycle.length (by omega) hwalkCycle rfl
        have houter := ih (before ++ after).length (by rw [List.length_append]; omega)
          (isWalk_append.mpr ⟨middle, hwalk, hrest⟩) rfl
        simp only [totalWeight_append] at houter ⊢
        omega

/-- Some simple walk weighs no less than a walk. -/
theorem IsWalk.exists_simple (h : IsWalk arcs first walk last) :
    ∃ simple, IsWalk arcs first simple last ∧ IsSimple simple ∧
      totalWeight walk ≤ totalWeight simple := by
  induction hlength : walk.length using Nat.strong_induction_on generalizing walk with
  | _ length ih =>
      by_cases hsimple : IsSimple walk
      · exact ⟨walk, h, hsimple, le_refl _⟩
      · obtain ⟨middle, before, cycle, after, rfl, -, hcycle, hwalk, hwalkCycle, hrest⟩ :=
          h.exists_repeat hsimple
        have hposCycle := List.length_pos_of_ne_nil hcycle
        simp only [List.length_append] at hlength
        obtain ⟨simple, hwalkSimple, hsimple, hle⟩ :=
          ih (before ++ after).length (by rw [List.length_append]; omega)
            (isWalk_append.mpr ⟨middle, hwalk, hrest⟩) rfl
        refine ⟨simple, hwalkSimple, hsimple, le_trans ?_ hle⟩
        have hloss := hwalkCycle.totalWeight_closed_le hcycles
        simp only [totalWeight_append]
        omega

/-- There are values that grow along every arc by its weight, each no larger than a simple walk from
the first node weighs. -/
theorem exists_potential (hnodes : 0 < nodes) (hwithin : Within nodes arcs)
    (hreached : ∀ node, 0 < node → node < nodes →
      ∃ arc ∈ arcs, arc.source = 0 ∧ arc.target = node) :
    ∃ value, IsPotential arcs value ∧ value 0 = 0 ∧ ∀ node < nodes,
      ∃ walk, IsWalk arcs 0 walk node ∧ IsSimple walk ∧ value node = totalWeight walk := by
  cases hpaths : longestPaths? id nodes arcs with
  | none =>
      obtain ⟨node, cycle, hcycle, hpositive⟩ :=
        exists_cycle_of_longestPaths?_eq_none hnodes hwithin hpaths
      have := hcycle.totalWeight_closed_le hcycles
      omega
  | some lengths =>
      obtain ⟨hfinal, hsettled⟩ := longestPaths?_eq_some hpaths
      have hwalks : ∀ node x, lengths.at? node = some x →
          ∃ walk, IsWalk arcs 0 walk node ∧ totalWeight walk = x := by
        intro node x hx
        rw [← hfinal] at hx
        obtain ⟨walk, hwalk, hweight⟩ := Lengths.exists_walk_of_settle hx
        exact ⟨walk, hwalk.mono (sweepOrder_subset nodes arcs), hweight⟩
      have htight : ∀ arc ∈ arcs, ∀ x, lengths.at? arc.source = some x →
          ∃ y, lengths.at? arc.target = some y ∧ x + arc.weight ≤ y :=
        fun arc hmem => Lengths.isSettled_iff.mp hsettled arc (hwithin.subset_sweepOrder hmem)
      have hzero : lengths.at? 0 = some 0 := by
        obtain ⟨x, hx, hnonneg⟩ : ∃ x, lengths.at? 0 = some x ∧ 0 ≤ x :=
          hfinal ▸ Lengths.noShorter_settle (nodes - 1) (Lengths.start nodes) 0 0
            (Lengths.at?_start.mpr ⟨rfl, hnodes, rfl⟩)
        obtain ⟨walk, hwalk, rfl⟩ := hwalks 0 x hx
        have := hwalk.totalWeight_closed_le hcycles
        rw [hx, show totalWeight walk = 0 by omega]
      have hknown : ∀ node < nodes, ∃ x, lengths.at? node = some x := by
        intro node hlt
        rcases Nat.eq_zero_or_pos node with rfl | hpos
        · exact ⟨0, hzero⟩
        · obtain ⟨arc, hmem, hsource, rfl⟩ := hreached node hpos hlt
          obtain ⟨y, hy, -⟩ := htight arc hmem 0 (hsource ▸ hzero)
          exact ⟨y, hy⟩
      have hvalue : IsPotential arcs fun node => (lengths.at? node).getD 0 := by
        intro arc hmem
        obtain ⟨x, hx⟩ := hknown arc.source (hwithin arc hmem).1
        obtain ⟨y, hy, hle⟩ := htight arc hmem x hx
        simpa [hx, hy] using hle
      refine ⟨_, hvalue, by simp [hzero], fun node hlt => ?_⟩
      obtain ⟨x, hx⟩ := hknown node hlt
      obtain ⟨walk, hwalk, rfl⟩ := hwalks node x hx
      obtain ⟨simple, hwalkSimple, hsimple, hle⟩ := hwalk.exists_simple hcycles
      have hbelow := hvalue.totalWeight_le hwalkSimple
      simp only [hx, hzero, Option.getD_some] at hbelow ⊢
      exact ⟨simple, hwalkSimple, hsimple, by omega⟩

end

/-! ## Weights of simple walks -/

/-- What the arcs of a simple walk weigh is bounded by what may lead into each node once. -/
theorem IsSimple.totalWeight_le (h : IsSimple walk) {cap : Nat → Nat}
    (hcap : ∀ arc ∈ walk, arc.target < nodes ∧ arc.weight ≤ cap arc.target) :
    totalWeight walk ≤ ∑ node ∈ Finset.range nodes, cap node := by
  have hsum : totalWeight walk ≤ ((walk.map (·.target)).map cap).sum := by
    clear h
    induction walk with
    | nil => simp
    | cons arc rest ih =>
        obtain ⟨⟨-, hle⟩, hrest⟩ := List.forall_mem_cons.mp hcap
        have := ih hrest
        simp only [totalWeight_cons, List.map_cons, List.sum_cons, Int.natCast_add]
        omega
  refine hsum.trans (Int.ofNat_le.mpr ?_)
  rw [← List.sum_toFinset cap h]
  refine Finset.sum_le_sum_of_subset fun node hnode => ?_
  obtain ⟨arc, harc, rfl⟩ := List.mem_map.mp (List.mem_toFinset.mp hnode)
  exact Finset.mem_range.mpr (hcap arc harc).1

/-- An arc of a simple walk that weighs less than what may lead into its target makes the walk
weigh less. -/
theorem IsSimple.totalWeight_le_sub (h : IsSimple walk) {cap : Nat → Nat} {saved : Int}
    (hcap : ∀ arc ∈ walk, arc.target < nodes ∧ arc.weight ≤ cap arc.target) {arc : Arc}
    (hmem : arc ∈ walk) (hsaved : arc.weight + saved ≤ cap arc.target) :
    totalWeight walk + saved ≤ ∑ node ∈ Finset.range nodes, cap node := by
  obtain ⟨before, after, rfl⟩ := List.append_of_mem hmem
  let lifted : Arc := { arc with weight := arc.weight + saved }
  have hsimple : IsSimple (before ++ lifted :: after) := by
    simpa [IsSimple, lifted] using h
  have hle := hsimple.totalWeight_le fun other hother => by
    rcases List.mem_append.mp hother with hother | hother
    · exact hcap other (List.mem_append_left _ hother)
    · rcases List.mem_cons.mp hother with rfl | hother
      · exact ⟨(hcap arc hmem).1, hsaved⟩
      · exact hcap other (List.mem_append_right _ (List.mem_cons_of_mem _ hother))
  simp only [totalWeight_append, totalWeight_cons, lifted] at hle ⊢
  omega

/-- A walk whose arcs all lead upwards does not close. -/
theorem IsWalk.not_closed {α : Type} [Preorder α] {key : Nat → α} {node : Nat} (hne : walk ≠ [])
    (h : IsWalk arcs node walk node) (hup : ∀ arc ∈ walk, key arc.source < key arc.target) :
    False := by
  have hle : ∀ {first last walk}, IsWalk arcs first walk last →
      (∀ arc ∈ walk, key arc.source < key arc.target) → key first ≤ key last := by
    intro first last walk
    induction walk generalizing first with
    | nil => rintro rfl _; exact le_refl _
    | cons arc rest ih =>
        rintro ⟨_, rfl, hrest⟩ hup
        obtain ⟨hfirst, hrestUp⟩ := List.forall_mem_cons.mp hup
        exact hfirst.le.trans (ih hrest hrestUp)
  cases walk with
  | nil => exact hne rfl
  | cons arc rest =>
      obtain ⟨_, rfl, hrest⟩ := h
      obtain ⟨hfirst, hrestUp⟩ := List.forall_mem_cons.mp hup
      exact lt_irrefl _ (hfirst.trans_le (hle hrest hrestUp))

/-! ## Values with lower bounds -/

/-- The arc between the nodes that follow its own ones. -/
def raised (arc : Arc) : Arc :=
  { source := arc.source + 1, target := arc.target + 1, weight := arc.weight }

/-- The arcs one node further up, and an arc from a new first node to each of the others that weighs
as much as the value of that node should be at least. -/
def anchored (nodes : Nat) (least : Nat → Int) (arcs : List Arc) : List Arc :=
  (List.range nodes).map (fun node => ⟨0, node + 1, least node⟩) ++ arcs.map raised

theorem totalWeight_map_raised (walk : List Arc) :
    totalWeight (walk.map raised) = totalWeight walk := by
  rw [totalWeight, List.map_map]
  rfl

theorem isSimple_map_raised : IsSimple (walk.map raised) ↔ IsSimple walk := by
  have hmap : (walk.map raised).map (·.target) = (walk.map (·.target)).map (· + 1) := by
    simp only [List.map_map]
    rfl
  rw [IsSimple, hmap, IsSimple]
  exact List.nodup_map_iff Nat.succ_injective

theorem mem_anchored {least : Nat → Int} {arc : Arc} :
    arc ∈ anchored nodes least arcs ↔
      (∃ node < nodes, arc = ⟨0, node + 1, least node⟩) ∨ ∃ inner ∈ arcs, arc = raised inner := by
  simp only [anchored, List.mem_append, List.mem_map, List.mem_range, eq_comm]

/-- A walk that has left the new first node is a walk along the old arcs. -/
theorem IsWalk.exists_raised {least : Nat → Int}
    (h : IsWalk (anchored nodes least arcs) (first + 1) walk last) :
    ∃ inner node, walk = inner.map raised ∧ last = node + 1 ∧ IsWalk arcs first inner node := by
  induction walk generalizing first with
  | nil => exact ⟨[], first, rfl, Eq.symm h, rfl⟩
  | cons arc rest ih =>
      obtain ⟨hmem, hsource, hrest⟩ := h
      rcases mem_anchored.mp hmem with ⟨node, -, rfl⟩ | ⟨step, hstep, rfl⟩
      · exact absurd hsource (Nat.succ_ne_zero first).symm
      · obtain ⟨inner, node, rfl, rfl, hinner⟩ := ih hrest
        exact ⟨step :: inner, node, rfl, rfl, hstep, Nat.succ.inj hsource, hinner⟩

/-- There are values that grow along every arc by its weight and are no lower than asked for; each
is what some node should be at least, raised along a simple walk from there. -/
theorem exists_potential_above (hwithin : Within nodes arcs) (least : Nat → Int)
    (hcycles : ∀ node cycle, IsWalk arcs node cycle node → IsSimple cycle →
      totalWeight cycle ≤ 0) :
    ∃ value, IsPotential arcs value ∧ (∀ node < nodes, least node ≤ value node) ∧
      ∀ node < nodes, ∃ first < nodes, ∃ walk, IsWalk arcs first walk node ∧ IsSimple walk ∧
        value node = least first + totalWeight walk := by
  have hclosed : ∀ node cycle, IsWalk (anchored nodes least arcs) node cycle node →
      IsSimple cycle → totalWeight cycle ≤ 0 := by
    intro node cycle hcycle hsimple
    cases node with
    | zero =>
        cases cycle with
        | nil => exact le_rfl
        | cons arc rest =>
            obtain ⟨hmem, -, hrest⟩ := hcycle
            rcases mem_anchored.mp hmem with ⟨other, -, rfl⟩ | ⟨step, -, rfl⟩
            all_goals
              obtain ⟨_, _, -, hlast, -⟩ := hrest.exists_raised
              cases hlast
    | succ node =>
        obtain ⟨inner, other, rfl, hnode, hinner⟩ := hcycle.exists_raised
        obtain rfl := Nat.succ.inj hnode
        rw [totalWeight_map_raised]
        exact hcycles _ inner hinner (isSimple_map_raised.mp hsimple)
  have hanchored : Within (nodes + 1) (anchored nodes least arcs) := by
    intro arc hmem
    rcases mem_anchored.mp hmem with ⟨node, hnode, rfl⟩ | ⟨step, hstep, rfl⟩
    · exact ⟨Nat.succ_pos _, Nat.succ_lt_succ hnode⟩
    · exact ⟨Nat.succ_lt_succ (hwithin step hstep).1, Nat.succ_lt_succ (hwithin step hstep).2⟩
  have hroot : ∀ node < nodes, ⟨0, node + 1, least node⟩ ∈ anchored nodes least arcs :=
    fun node hnode => mem_anchored.mpr (Or.inl ⟨node, hnode, rfl⟩)
  obtain ⟨value, hvalue, hzero, hwalks⟩ :=
    exists_potential hclosed (Nat.succ_pos nodes) hanchored fun node hpos hlt => by
      obtain ⟨node, rfl⟩ := Nat.exists_eq_succ_of_ne_zero hpos.ne'
      exact ⟨_, hroot node (Nat.lt_of_succ_lt_succ hlt), rfl, rfl⟩
  refine ⟨fun node => value (node + 1), fun arc hmem => ?_, fun node hnode => ?_,
    fun node hnode => ?_⟩
  · exact hvalue (raised arc) (mem_anchored.mpr (Or.inr ⟨arc, hmem, rfl⟩))
  · have := hvalue _ (hroot node hnode)
    simpa [hzero] using this
  · obtain ⟨walk, hwalk, hsimple, hweight⟩ := hwalks (node + 1) (Nat.succ_lt_succ hnode)
    cases walk with
    | nil => exact absurd hwalk (Nat.succ_ne_zero node).symm
    | cons arc rest =>
        obtain ⟨hmem, hsource, hrest⟩ := hwalk
        rcases mem_anchored.mp hmem with ⟨first, hfirst, rfl⟩ | ⟨step, -, rfl⟩
        · obtain ⟨inner, other, rfl, hnode, hinner⟩ := hrest.exists_raised
          obtain rfl := Nat.succ.inj hnode
          refine ⟨first, hfirst, inner, hinner, ?_, ?_⟩
          · exact isSimple_map_raised.mp (List.nodup_cons.mp hsimple).2
          · exact hweight.trans (by rw [totalWeight_cons, totalWeight_map_raised])
        · exact absurd hsource (Nat.succ_ne_zero _)

end SlotScheduling.Arc
