import Mathlib.Algebra.Order.BigOperators.Group.List
import Mathlib.Logic.Relation
import Mathlib.Tactic.Ring
import SlotScheduling.Proofs.Pipeline.Recurrence

/-!
# Components

Two nodes are together when each of them reaches the other one.  That is an
equivalence, and the walk over all nodes leaves every node, so that every class of it
is listed as a component: a set of nodes that reach each other lies within one.
-/

namespace SlotScheduling

namespace LoopArc

variable {nodes a b c : Nat} {arcs : List LoopArc}

/-- Every arc joins two of the first `nodes` nodes. -/
def Bounded (nodes : Nat) (arcs : List LoopArc) : Prop :=
  ∀ arc ∈ arcs, arc.source < nodes ∧ arc.target < nodes

/-- Some arc leads from one node to the other. -/
def Joins (arcs : List LoopArc) (a b : Nat) : Prop :=
  ∃ arc ∈ arcs, arc.source = a ∧ arc.target = b

/-- A walk along the arcs leads from one node to the other. -/
def Reaches (arcs : List LoopArc) : Nat → Nat → Prop := Relation.ReflTransGen (Joins arcs)

theorem Reaches.lt (hbounded : Bounded nodes arcs) (h : Reaches arcs a b) (ha : a < nodes) :
    b < nodes := by
  rcases Relation.ReflTransGen.cases_tail h with rfl | ⟨_, _, arc, harc, _, rfl⟩
  · exact ha
  · exact (hbounded arc harc).2

/-- The arcs of the test for the nodes that a node reaches. -/
def reachArcs (arcs : List LoopArc) (node : Nat) : List Arc :=
  ⟨0, node + 1, 0⟩ :: arcs.map fun arc => Arc.mk (arc.source + 1) (arc.target + 1) 0

theorem Bounded.within (hbounded : Bounded nodes arcs) (ha : a < nodes) :
    Arc.Within (nodes + 1) (reachArcs arcs a) := by
  intro arc harc
  rcases List.mem_cons.mp harc with rfl | harc
  · exact ⟨Nat.succ_pos _, Nat.succ_lt_succ ha⟩
  · obtain ⟨step, hstep, rfl⟩ := List.mem_map.mp harc
    obtain ⟨hsource, htarget⟩ := hbounded step hstep
    exact ⟨Nat.succ_lt_succ hsource, Nat.succ_lt_succ htarget⟩

/-- What is found from the start has been reached by a walk. -/
theorem reaches_of_isWalk {walk : List Arc} {first last : Nat}
    (hwalk : Arc.IsWalk (reachArcs arcs a) first walk last)
    (hfirst : first = 0 ∨ Reaches arcs a (first - 1)) (hlast : last ≠ 0) :
    Reaches arcs a (last - 1) := by
  induction walk generalizing first with
  | nil =>
      obtain rfl : first = last := hwalk
      exact hfirst.resolve_left hlast
  | cons arc rest ih =>
      obtain ⟨harc, rfl, hrest⟩ := hwalk
      refine ih hrest (Or.inr ?_)
      rcases List.mem_cons.mp harc with rfl | harc
      · exact Relation.ReflTransGen.refl
      · obtain ⟨step, hstep, rfl⟩ := List.mem_map.mp harc
        exact (hfirst.resolve_left (Nat.succ_ne_zero _)).tail ⟨step, hstep, rfl, rfl⟩

/-- The test finds exactly the nodes that the node reaches. -/
theorem getD_reachedFrom (hbounded : Bounded nodes arcs) (ha : a < nodes) (hb : b < nodes) :
    (reachedFrom nodes arcs a)[b]?.getD false = true ↔ Reaches arcs a b := by
  have hzero : Arc.IsPotential (reachArcs arcs a) fun _ => 0 := by
    intro arc harc
    rcases List.mem_cons.mp harc with rfl | harc
    · exact le_rfl
    · obtain ⟨step, _, rfl⟩ := List.mem_map.mp harc
      exact le_rfl
  have hpaths : ∃ lengths, longestPaths? id (nodes + 1) (reachArcs arcs a) = some lengths := by
    refine Option.ne_none_iff_exists'.mp fun hnone => ?_
    obtain ⟨node, cycle, hcycle, hpos⟩ :=
      exists_cycle_of_longestPaths?_eq_none (Nat.succ_pos _) (hbounded.within ha) hnone
    have := hzero.totalWeight_cycle_le hcycle
    omega
  obtain ⟨lengths, hlengths⟩ := hpaths
  obtain ⟨hfinal, hsettled⟩ := longestPaths?_eq_some hlengths
  rw [Lengths.isSettled_iff] at hsettled
  have hsize : Array.size lengths = nodes + 1 := by
    rw [← hfinal, Lengths.size_settle, Lengths.size_start]
  have hread : (reachedFrom nodes arcs a)[b]?.getD false = (lengths.at? (b + 1)).isSome := by
    have hlt : b + 1 < Array.size lengths := by omega
    have hreached : reachedFrom nodes arcs a = (lengths.toList.drop 1).map Option.isSome := by
      unfold reachArcs at hlengths
      simp only [reachedFrom, hlengths]
    rw [hreached, List.getElem?_map, List.getElem?_drop, Nat.add_comm 1 b, Array.getElem?_toList,
      Array.getElem?_eq_getElem hlt, Lengths.at?, Array.getD_eq_getD_getElem?,
      Array.getElem?_eq_getElem hlt]
    rfl
  have htight : ∀ arc ∈ reachArcs arcs a, ∀ x, lengths.at? arc.source = some x →
      ∃ y, lengths.at? arc.target = some y ∧ x + arc.weight ≤ y :=
    fun arc harc => hsettled arc ((hbounded.within ha).subset_sweepOrder harc)
  rw [hread, Option.isSome_iff_exists]
  clear hread
  constructor
  · rintro ⟨x, hx⟩
    rw [← hfinal] at hx
    obtain ⟨walk, hwalk, _⟩ := Lengths.exists_walk_of_settle hx
    have hwalk := hwalk.mono (Arc.sweepOrder_subset _ _)
    exact reaches_of_isWalk hwalk (Or.inl rfl) (Nat.succ_ne_zero b)
  · intro hreaches
    induction hreaches with
    | refl =>
        obtain ⟨first, hfirst, _⟩ : ∃ x, lengths.at? 0 = some x ∧ 0 ≤ x :=
          hfinal ▸ Lengths.noShorter_settle _ _ 0 0
            (Lengths.at?_start.mpr ⟨rfl, Nat.succ_pos _, rfl⟩)
        obtain ⟨y, hy, _⟩ := htight _ List.mem_cons_self first hfirst
        exact ⟨y, hy⟩
    | tail hbefore hjoins ih =>
        obtain ⟨arc, harc, rfl, rfl⟩ := hjoins
        obtain ⟨x, hx⟩ := ih (hbounded arc harc).1
        obtain ⟨y, hy, _⟩ := htight _ (List.mem_cons_of_mem _ (List.mem_map_of_mem harc)) x hx
        exact ⟨y, hy⟩

end LoopArc

/-! ## The order of leaving -/

namespace Walk

variable {arcs : List LoopArc} {nodes depth node x : Nat} {walk : Walk}

/-- A later stage of a walk: what was entered stays entered, and what was left stays left. -/
structure Continues (walk later : Walk) : Prop where
  entered : walk.entered ⊆ later.entered
  left : walk.left ⊆ later.left
  /-- What is entered in between is left in between. -/
  closes : ∀ x ∈ later.entered, x ∈ walk.entered ∨ x ∈ later.left

theorem Continues.refl (walk : Walk) : walk.Continues walk :=
  ⟨fun _ h => h, fun _ h => h, fun _ => Or.inl⟩

theorem Continues.trans {later last : Walk} (h : walk.Continues later)
    (h' : later.Continues last) : walk.Continues last where
  entered := List.Subset.trans h.entered h'.entered
  left := List.Subset.trans h.left h'.left
  closes x hx := (h'.closes x hx).elim (fun hx => (h.closes x hx).imp_right (h'.left ·)) Or.inr

theorem continues_foldl {visitOne : Walk → Nat → Walk}
    (hvisit : ∀ (walk : Walk) (node : Nat), walk.Continues (visitOne walk node))
    (order : List Nat) (walk : Walk) :
    walk.Continues (order.foldl visitOne walk) := by
  induction order generalizing walk with
  | nil => exact Continues.refl walk
  | cons node rest ih => exact (hvisit walk node).trans (ih _)

theorem continues_visit (arcs : List LoopArc) (depth : Nat) (walk : Walk) (node : Nat) :
    walk.Continues (visit arcs depth walk node) := by
  induction depth generalizing walk node with
  | zero => exact Continues.refl walk
  | succ depth ih =>
      rw [visit]
      split
      · exact Continues.refl walk
      have hinner := continues_foldl ih (LoopArc.successors arcs node)
        { walk with entered := node :: walk.entered }
      refine ⟨fun x hx => hinner.entered (List.mem_cons_of_mem node hx),
        fun x hx => List.mem_append_left _ (hinner.left hx), fun x hx => ?_⟩
      rcases hinner.closes x hx with hentered | hleft
      · rcases List.mem_cons.mp hentered with rfl | hentered
        · exact Or.inr (List.mem_append_right _ List.mem_cons_self)
        · exact Or.inl hentered
      · exact Or.inr (List.mem_append_left _ hleft)

theorem mem_entered_visit : node ∈ (visit arcs (depth + 1) walk node).entered := by
  rw [visit]
  split
  next hentered => exact hentered
  next =>
    exact (continues_foldl (continues_visit arcs depth) _ _).entered List.mem_cons_self

/-- Every node is left once all have been visited. -/
theorem mem_finishOrder (h : node < nodes) : node ∈ finishOrder nodes arcs := by
  have hmem : ∀ (order : List Nat) (walk : Walk), node ∈ order →
      node ∈ (order.foldl (visit arcs (nodes + 1)) walk).entered := by
    intro order
    induction order with
    | nil => exact fun _ hnode => absurd hnode List.not_mem_nil
    | cons first rest ih =>
        intro walk hnode
        rcases List.mem_cons.mp hnode with rfl | hnode
        · exact (continues_foldl (continues_visit arcs _) rest _).entered mem_entered_visit
        · exact ih _ hnode
  have hentered := hmem (List.range nodes) {} (List.mem_range.mpr h)
  exact ((continues_foldl (continues_visit arcs _) _ _).closes node hentered).resolve_left
    List.not_mem_nil

end Walk

/-! ## Components of a graph -/

namespace Component

variable {nodes a b : Nat} {arcs : List LoopArc}

/-- Of the nodes that are together with a listed node, one is kept. -/
theorem exists_lastOfEach {together : Nat → Nat → Bool}
    (hsymm : ∀ {a b}, together a b = true → together b a = true)
    (htrans : ∀ {a b c}, together a b = true → together b c = true → together a c = true)
    {order : List Nat} (ha : a ∈ order) (hself : together a a = true) :
    ∃ last ∈ lastOfEach together order, together last a = true := by
  induction order generalizing a with
  | nil => exact absurd ha List.not_mem_nil
  | cons node later ih =>
      rw [lastOfEach]
      rcases List.mem_cons.mp ha with rfl | ha
      · split
        next hlater =>
          obtain ⟨other, hother, htogether⟩ := List.any_eq_true.mp hlater
          obtain ⟨last, hlast, hsame⟩ := ih hother (htrans (hsymm htogether) htogether)
          exact ⟨last, hlast, htrans hsame (hsymm htogether)⟩
        next => exact ⟨a, List.mem_cons_self, hself⟩
      · obtain ⟨last, hlast, hsame⟩ := ih ha hself
        refine ⟨last, ?_, hsame⟩
        split
        · exact hlast
        · exact List.mem_cons_of_mem _ hlast

/-- Nodes are together exactly if they reach each other. -/
theorem areTogether_eq_true (hbounded : LoopArc.Bounded nodes arcs) :
    areTogether (LoopArc.reachTable nodes arcs) a b = true ↔
      (a < nodes ∧ b < nodes) ∧ LoopArc.Reaches arcs a b ∧ LoopArc.Reaches arcs b a := by
  have hrow : ∀ {a b}, ((LoopArc.reachTable nodes arcs).getD a #[]).getD b false = true →
      a < nodes := by
    intro a b hentry
    by_contra hge
    simp [LoopArc.reachTable, hge] at hentry
  have hentry : ∀ {a b}, a < nodes →
      ((LoopArc.reachTable nodes arcs).getD a #[]).getD b false =
        (LoopArc.reachedFrom nodes arcs a)[b]?.getD false := by
    intro a b ha
    simp [LoopArc.reachTable, ha]
  rw [areTogether, Bool.and_eq_true]
  constructor
  · rintro ⟨hforth, hback⟩
    have ha := hrow hforth
    have hb := hrow hback
    rw [hentry ha, LoopArc.getD_reachedFrom hbounded ha hb] at hforth
    rw [hentry hb, LoopArc.getD_reachedFrom hbounded hb ha] at hback
    exact ⟨⟨ha, hb⟩, hforth, hback⟩
  · rintro ⟨⟨ha, hb⟩, hforth, hback⟩
    rw [hentry ha, hentry hb, LoopArc.getD_reachedFrom hbounded ha hb,
      LoopArc.getD_reachedFrom hbounded hb ha]
    exact ⟨hforth, hback⟩

/-- Around every node there is a component that holds all arcs among the nodes that
reach it and that it reaches. -/
theorem exists_component (hbounded : LoopArc.Bounded nodes arcs) (ha : a < nodes) :
    ∃ component ∈ all nodes arcs, ∀ arc ∈ arcs,
      LoopArc.Reaches arcs a arc.source → LoopArc.Reaches arcs arc.target a →
        arc ∈ component.arcs := by
  have htogether := fun a b => areTogether_eq_true (a := a) (b := b) hbounded
  have hkept : ∃ last ∈ lastOfEach (areTogether (LoopArc.reachTable nodes arcs))
      (Walk.finishOrder nodes arcs), areTogether (LoopArc.reachTable nodes arcs) last a = true := by
    refine exists_lastOfEach (fun {a b} h => ?_) (fun {a b c} h h' => ?_)
      (Walk.mem_finishOrder ha) ?_
    · rw [htogether] at h ⊢
      exact ⟨h.1.symm, h.2.symm⟩
    · rw [htogether] at h h' ⊢
      exact ⟨⟨h.1.1, h'.1.2⟩, h.2.1.trans h'.2.1, h'.2.2.trans h.2.2⟩
    · exact (htogether a a).mpr
        ⟨⟨ha, ha⟩, Relation.ReflTransGen.refl, Relation.ReflTransGen.refl⟩
  obtain ⟨last, hlast, hsame⟩ := hkept
  obtain ⟨⟨hlt, _⟩, hforth, hback⟩ := (htogether last a).mp hsame
  refine ⟨_, List.mem_map_of_mem hlast, fun arc harc hsource htarget => ?_⟩
  have hstep : LoopArc.Reaches arcs arc.source arc.target :=
    Relation.ReflTransGen.single ⟨arc, harc, rfl, rfl⟩
  obtain ⟨hs, ht⟩ := hbounded arc harc
  have hmembers : ∀ {b}, b < nodes → LoopArc.Reaches arcs a b → LoopArc.Reaches arcs b a →
      areTogether (LoopArc.reachTable nodes arcs) last b = true :=
    fun hb hto hfrom => (htogether last _).mpr ⟨⟨hlt, hb⟩, hforth.trans hto, hfrom.trans hback⟩
  have hsource' := hmembers hs hsource (hstep.trans htarget)
  have htarget' := hmembers ht (hsource.trans hstep) htarget
  simp [ofNode, harc, hs, ht, hsource', htarget']

end Component

/-! ## Closed walks -/

namespace LoopArc

variable {nodes first last interval : Nat} {arcs walk : List LoopArc}

/-- The arcs lead from the first node to the last one. -/
def IsWalk (arcs : List LoopArc) : Nat → List LoopArc → Nat → Prop
  | first, [], last => first = last
  | first, arc :: rest, last => arc ∈ arcs ∧ arc.source = first ∧ IsWalk arcs arc.target rest last

/-- The arc with the offset that it asks for at an interval. -/
def toArc (interval : Nat) (arc : LoopArc) : Arc :=
  ⟨arc.source, arc.target, arc.edge.offsetAt interval⟩

theorem IsWalk.toArcs (h : IsWalk arcs first walk last) (interval : Nat) :
    Arc.IsWalk (arcs.map (toArc interval)) first (walk.map (toArc interval)) last := by
  induction walk generalizing first with
  | nil => exact h
  | cons arc rest ih =>
      obtain ⟨harc, hsource, hrest⟩ := h
      exact ⟨List.mem_map_of_mem harc, hsource, ih hrest⟩

theorem IsWalk.mono {more : List LoopArc} (h : IsWalk arcs first walk last)
    (hmore : ∀ arc ∈ walk, arc ∈ more) : IsWalk more first walk last := by
  induction walk generalizing first with
  | nil => exact h
  | cons arc rest ih =>
      rw [List.forall_mem_cons] at hmore
      obtain ⟨_, hsource, hrest⟩ := h
      exact ⟨hmore.1, hsource, ih hrest hmore.2⟩

/-- Every arc on the way is reached from the first node and leads to the last one. -/
theorem IsWalk.reaches (h : IsWalk arcs first walk last) :
    Reaches arcs first last ∧ ∀ arc ∈ walk,
      arc ∈ arcs ∧ Reaches arcs first arc.source ∧ Reaches arcs arc.target last := by
  induction walk generalizing first with
  | nil =>
      obtain rfl : first = last := h
      exact ⟨Relation.ReflTransGen.refl, by simp⟩
  | cons arc rest ih =>
      obtain ⟨harc, rfl, hrest⟩ := h
      obtain ⟨htarget, hon⟩ := ih hrest
      have hjoins : Joins arcs arc.source arc.target := ⟨arc, harc, rfl, rfl⟩
      refine ⟨Relation.ReflTransGen.head hjoins htarget, List.forall_mem_cons.mpr ⟨?_, ?_⟩⟩
      · exact ⟨harc, Relation.ReflTransGen.refl, htarget⟩
      · intro other hother
        obtain ⟨hmem, hsource, hlast⟩ := hon other hother
        exact ⟨hmem, Relation.ReflTransGen.head hjoins hsource, hlast⟩

/-- A closed walk stays within one component. -/
theorem IsWalk.exists_component (hbounded : Bounded nodes arcs) (hne : walk ≠ [])
    (h : IsWalk arcs first walk first) :
    ∃ component ∈ Component.all nodes arcs, ∀ arc ∈ walk, arc ∈ component.arcs := by
  have hfirst : first < nodes := by
    obtain ⟨arc, rest, rfl⟩ := List.exists_cons_of_ne_nil hne
    obtain ⟨harc, rfl, _⟩ := h
    exact (hbounded arc harc).1
  obtain ⟨component, hmem, harcs⟩ := Component.exists_component hbounded hfirst
  refine ⟨component, hmem, fun arc harc => ?_⟩
  obtain ⟨harc, hsource, htarget⟩ := h.reaches.2 arc harc
  exact harcs arc harc hsource htarget

theorem totalWeight_toArc (walk : List LoopArc) (interval : Nat) :
    Arc.totalWeight (walk.map (toArc interval)) =
      ((walk.map (·.edge.latency)).sum : Nat) -
        ((walk.map (·.edge.distance)).sum * interval : Nat) := by
  induction walk with
  | nil => simp
  | cons arc rest ih =>
      simp only [List.map_cons, Arc.totalWeight_cons, ih, List.sum_cons, toArc, DepEdge.offsetAt]
      push_cast
      ring

end LoopArc

namespace Component

variable {component : Component} {first interval : Nat} {walk : List LoopArc}

/-- Around a closed walk, the latencies do not exceed what the distances make up for. -/
theorem IsSlotting.sum_latency_le {value : Nat → Int} (h : component.IsSlotting interval value)
    (hwalk : LoopArc.IsWalk component.arcs first walk first) :
    (walk.map (·.edge.latency)).sum ≤ interval * (walk.map (·.edge.distance)).sum := by
  have hpotential : Arc.IsPotential (component.arcs.map (LoopArc.toArc interval)) value := by
    intro arc harc
    obtain ⟨step, hstep, rfl⟩ := List.mem_map.mp harc
    exact h step hstep
  have hweight := hpotential.totalWeight_cycle_le (hwalk.toArcs interval)
  rw [LoopArc.totalWeight_toArc, Nat.mul_comm] at hweight
  exact Int.ofNat_le.mp (sub_nonpos.mp hweight)

/-- Arcs that differ from each other have no more latency than all arcs of the component. -/
theorem sum_latency_le_sum (hnodup : walk.Nodup) (hwalk : ∀ arc ∈ walk, arc ∈ component.arcs) :
    (walk.map (·.edge.latency)).sum ≤ (component.arcs.map (·.edge.latency)).sum := by
  obtain ⟨inner, hperm, hinner⟩ := List.subperm_of_subset hnodup hwalk
  rw [← (hperm.map _).sum_eq]
  exact (hinner.map _).sum_le_sum fun _ _ => Nat.zero_le _

end Component

end SlotScheduling
