import SlotScheduling.Proofs.Difference.Relaxation

/-!
# Longest paths by relaxation

As many sweeps as there are nodes, less one, cover every walk that visits no
node twice.  So a run that is not settled then has met a closed walk of
positive weight.  With rounding the same number of sweeps is enough as long as
every length that a sweep starts from can be extended without loss.
-/

namespace SlotScheduling

namespace Lengths

variable {keep : Int → Int} {arcs : List Arc}

/-- Every walk of at most `size` arcs from the first node has a length at its
end that is at least its weight. -/
def Covers (arcs : List Arc) (size : Nat) (lengths : Lengths) : Prop :=
  ∀ walk node, Arc.IsWalk arcs 0 walk node → walk.length ≤ size →
    ∃ y, lengths.at? node = some y ∧ Arc.totalWeight walk ≤ y

/-- Rounding cuts nothing off a length that is extended by an arc. -/
def Extensible (keep : Int → Int) (arcs : List Arc) (lengths : Lengths) : Prop :=
  ∀ arc ∈ arcs, ∀ x y, lengths.at? arc.source = some x → x ≤ y →
    x + arc.weight ≤ keep (y + arc.weight)

theorem extensible_id (lengths : Lengths) : lengths.Extensible id arcs :=
  fun _ _ _ _ _ hxy => Int.add_le_add_right hxy _

theorem Covers.noShorter {size : Nat} {before after : Lengths}
    (hcovers : before.Covers arcs size) (h : before.NoShorter after) :
    after.Covers arcs size := by
  intro walk node hwalk hlength
  obtain ⟨x, hx, hle⟩ := hcovers walk node hwalk hlength
  obtain ⟨y, hy, hxy⟩ := h node x hx
  exact ⟨y, hy, hle.trans hxy⟩

theorem covers_start {nodes : Nat} (hnodes : 0 < nodes) :
    (start nodes).Covers arcs 0 := by
  intro walk node hwalk hlength
  obtain rfl : walk = [] := List.length_eq_zero_iff.mp (Nat.le_zero.mp hlength)
  exact ⟨0, at?_start.mpr ⟨hwalk.symm, hnodes, rfl⟩, le_rfl⟩

theorem size_foldl_relax (more : List Arc) (lengths : Lengths) :
    Array.size (more.foldl (relax keep) lengths) = Array.size lengths := by
  induction more generalizing lengths with
  | nil => rfl
  | cons arc rest ih => exact (ih _).trans (size_relax lengths arc)

theorem size_sweep_iterate (rounds : Nat) (lengths : Lengths) :
    Array.size ((sweep keep arcs)^[rounds] lengths) = Array.size lengths := by
  induction rounds generalizing lengths with
  | zero => rfl
  | succ rounds ih => exact (ih _).trans (size_foldl_relax arcs lengths)

theorem noShorter_iterate (rounds : Nat) (lengths : Lengths) :
    lengths.NoShorter ((sweep keep arcs)^[rounds] lengths) := by
  induction rounds generalizing lengths with
  | zero => exact NoShorter.refl lengths
  | succ rounds ih => exact (noShorter_foldl keep arcs lengths).trans (ih _)

/-- After a sweep, the length at the target of an arc is at least what the arc
made of the length at its source before the sweep. -/
theorem sweep_target {lengths : Lengths} (hextensible : lengths.Extensible keep arcs)
    {arc : Arc} (hmem : arc ∈ arcs) (hlt : arc.target < lengths.size) {x : Int}
    (hx : lengths.at? arc.source = some x) :
    ∃ y, (sweep keep arcs lengths).at? arc.target = some y ∧ x + arc.weight ≤ y := by
  obtain ⟨before, after, hsplit⟩ := List.append_of_mem hmem
  have hsweep : sweep keep arcs lengths =
      after.foldl (relax keep) (relax keep (before.foldl (relax keep) lengths) arc) := by
    unfold sweep
    rw [hsplit, List.foldl_append, List.foldl_cons]
  obtain ⟨y, hy, hxy⟩ := noShorter_foldl keep before lengths arc.source x hx
  obtain ⟨z, hz, hyz⟩ :=
    relax_target keep hy (by rw [size_foldl_relax]; exact hlt)
  obtain ⟨last, hlast, hzlast⟩ :=
    noShorter_foldl keep after _ arc.target z hz
  rw [hsweep]
  exact ⟨last, hlast, (hextensible arc hmem x y hx hxy).trans (hyz.trans hzlast)⟩

theorem Covers.sweep {size nodes : Nat} {lengths : Lengths}
    (hcovers : lengths.Covers arcs size) (hwithin : Arc.Within nodes arcs)
    (hsize : lengths.size = nodes) (hextensible : lengths.Extensible keep arcs) :
    (sweep keep arcs lengths).Covers arcs (size + 1) := by
  intro walk node hwalk hlength
  rcases List.eq_nil_or_concat walk with rfl | ⟨before, arc, rfl⟩
  · exact (hcovers.noShorter (noShorter_foldl keep arcs lengths)) [] node hwalk
      (Nat.zero_le size)
  · rw [List.concat_eq_append] at hwalk hlength ⊢
    obtain ⟨middle, hbefore, hmem, rfl, rfl⟩ := Arc.isWalk_append.mp hwalk
    have hshort : before.length ≤ size := by
      simpa using hlength
    obtain ⟨x, hx, hle⟩ := hcovers before arc.source hbefore hshort
    obtain ⟨y, hy, hxy⟩ :=
      sweep_target hextensible hmem (hsize ▸ (hwithin arc hmem).2) hx
    refine ⟨y, hy, le_trans ?_ hxy⟩
    simp only [Arc.totalWeight_append, Arc.totalWeight_cons, Arc.totalWeight_nil]
    omega

theorem exists_walk_of_settle {nodes rounds node : Nat} {x : Int}
    (hx : (settle id arcs rounds (start nodes)).at? node = some x) :
    ∃ walk, Arc.IsWalk arcs 0 walk node ∧ Arc.totalWeight walk = x := by
  refine settle_induction
    (P := fun lengths => ∀ node x, lengths.at? node = some x →
      ∃ walk, Arc.IsWalk arcs 0 walk node ∧ Arc.totalWeight walk = x)
    ?_ rounds ?_ node x hx
  · intro lengths arc hmem hwalks node y hy
    rcases relax_cases id lengths arc with h | ⟨x, hsource, _, h⟩
    · exact hwalks node y (h ▸ hy)
    · rw [h, at?_set] at hy
      by_cases hnode : arc.target = node ∧ arc.target < lengths.size
      · rw [if_pos hnode, Option.some.injEq] at hy
        obtain ⟨rfl, _⟩ := hnode
        obtain ⟨walk, hwalk, hweight⟩ := hwalks arc.source x hsource
        refine ⟨walk ++ [arc], hwalk.snoc hmem, ?_⟩
        simpa [hweight] using hy
      · rw [if_neg hnode] at hy
        exact hwalks node y hy
  · intro node x hx
    obtain ⟨rfl, _, rfl⟩ := at?_start.mp hx
    exact ⟨[], rfl, rfl⟩

theorem covers_sweep_iterate {nodes : Nat} (hnodes : 0 < nodes)
    (hwithin : Arc.Within nodes arcs)
    (hextensible : ∀ rounds, ((sweep keep arcs)^[rounds] (start nodes)).Extensible keep arcs)
    (rounds : Nat) : ((sweep keep arcs)^[rounds] (start nodes)).Covers arcs rounds := by
  induction rounds with
  | zero => exact covers_start hnodes
  | succ rounds ih =>
      rw [Function.iterate_succ_apply']
      exact ih.sweep hwithin (by rw [size_sweep_iterate, size_start]) (hextensible rounds)

end Lengths

namespace Arc

theorem IsWalk.mono {arcs more : List Arc} (hsub : arcs ⊆ more) {first last : Nat}
    {walk : List Arc} (hwalk : IsWalk arcs first walk last) :
    IsWalk more first walk last := by
  induction walk generalizing first with
  | nil => exact hwalk
  | cons arc rest ih => exact ⟨hsub hwalk.1, hwalk.2.1, ih hwalk.2.2⟩

theorem IsPotential.mono {arcs more : List Arc} (hsub : arcs ⊆ more) {value : Nat → Int}
    (hvalue : IsPotential more value) : IsPotential arcs value :=
  fun arc hmem => hvalue arc (hsub hmem)

theorem within_sweepOrder {nodes : Nat} {arcs : List Arc} (hwithin : Within nodes arcs) :
    Within nodes (sweepOrder nodes arcs) :=
  fun arc hmem => hwithin arc (mem_sweepOrder.mp hmem).1

theorem sweepOrder_subset (nodes : Nat) (arcs : List Arc) :
    sweepOrder nodes arcs ⊆ arcs :=
  fun _ hmem => (mem_sweepOrder.mp hmem).1

theorem Within.subset_sweepOrder {nodes : Nat} {arcs : List Arc}
    (hwithin : Within nodes arcs) : arcs ⊆ sweepOrder nodes arcs :=
  fun arc hmem => mem_sweepOrder.mpr ⟨hmem, (hwithin arc hmem).1⟩

end Arc

open Lengths in
theorem longestPaths?_eq_some {keep : Int → Int} {nodes : Nat} {arcs : List Arc}
    {lengths : Lengths} (h : longestPaths? keep nodes arcs = some lengths) :
    settle keep (Arc.sweepOrder nodes arcs) (nodes - 1) (start nodes) = lengths ∧
      lengths.isSettled keep (Arc.sweepOrder nodes arcs) = true := by
  unfold longestPaths? at h
  simp only at h
  split at h
  next hsettled =>
    cases h
    exact ⟨rfl, hsettled⟩
  next => cases h

open Lengths in
/-- Without rounding, there are longest paths or there is a closed walk of
positive weight. -/
theorem exists_cycle_of_longestPaths?_eq_none {nodes : Nat} {arcs : List Arc}
    (hnodes : 0 < nodes) (hwithin : Arc.Within nodes arcs)
    (h : longestPaths? id nodes arcs = none) :
    ∃ node cycle, Arc.IsWalk arcs node cycle node ∧ 0 < Arc.totalWeight cycle := by
  by_contra hnone
  have hsub := Arc.sweepOrder_subset nodes arcs
  have hcycles : ∀ node cycle,
      Arc.IsWalk (Arc.sweepOrder nodes arcs) node cycle node →
        Arc.totalWeight cycle ≤ 0 := by
    intro node cycle hcycle
    by_contra hpos
    exact hnone ⟨node, cycle, hcycle.mono hsub, by omega⟩
  unfold longestPaths? at h
  simp only at h
  split at h
  · cases h
  next hunsettled =>
    obtain ⟨sweeps, heq, hsettled | rfl⟩ :=
      settle_eq id (Arc.sweepOrder nodes arcs) (nodes - 1) (start nodes)
    · exact hunsettled hsettled
    · apply hunsettled
      rw [isSettled_iff]
      intro arc hmem x hx
      obtain ⟨walk, hwalk, rfl⟩ := exists_walk_of_settle hx
      obtain ⟨short, hshort, hlength, hweight⟩ :=
        (hwalk.snoc hmem).exists_short (Arc.within_sweepOrder hwithin) hnodes hcycles
      obtain ⟨y, hy, hle⟩ :=
        covers_sweep_iterate hnodes (Arc.within_sweepOrder hwithin) (fun _ => extensible_id _)
          (nodes - 1) short arc.target hshort (by omega)
      rw [← heq] at hy
      refine ⟨y, hy, le_trans ?_ hle⟩
      simpa using hweight

/-! ## Grounded systems -/

namespace Arc

/-- Every node but the first has an arc from the first of weight at least `low`,
and between `low` and `high` no sum of a length and a weight passes `limit`. -/
structure Grounded (nodes : Nat) (low high limit : Int) (arcs : List Arc) : Prop where
  within : Within nodes arcs
  reached : ∀ node, 0 < node → node < nodes →
    ∃ arc ∈ arcs, arc.source = 0 ∧ arc.target = node ∧ low ≤ arc.weight
  low_nonpos : low ≤ 0
  high_nonneg : 0 ≤ high
  low_ge : -limit ≤ low
  high_le : high ≤ limit
  weights : ∀ arc ∈ arcs, -limit ≤ low + arc.weight ∧ high + arc.weight ≤ limit

theorem Grounded.of_sweepOrder {nodes : Nat} {low high limit : Int} {arcs : List Arc}
    (hgrounded : Grounded nodes low high limit arcs) :
    Grounded nodes low high limit (sweepOrder nodes arcs) where
  within := within_sweepOrder hgrounded.within
  reached := by
    intro node hpos hlt
    obtain ⟨arc, hmem, harc⟩ := hgrounded.reached node hpos hlt
    exact ⟨arc, hgrounded.within.subset_sweepOrder hmem, harc⟩
  low_nonpos := hgrounded.low_nonpos
  high_nonneg := hgrounded.high_nonneg
  low_ge := hgrounded.low_ge
  high_le := hgrounded.high_le
  weights := fun arc hmem => hgrounded.weights arc (sweepOrder_subset nodes arcs hmem)

end Arc

namespace Lengths

section Grounded

variable {keep : Int → Int} {arcs : List Arc} {nodes : Nat} {low high limit : Int}
  {value : Nat → Int}
  (hnodes : 0 < nodes) (hgrounded : Arc.Grounded nodes low high limit arcs)

include hnodes hgrounded

/-- What is found without rounding: lengths that are weights of walks, below
every potential, for all nodes. -/
theorem exists_settled_walks (hvalue : Arc.IsPotential arcs value) :
    ∃ lengths : Lengths, lengths.size = nodes ∧ lengths.at? 0 = some 0 ∧
      (∀ arc ∈ arcs, ∀ x, lengths.at? arc.source = some x →
        ∃ y, lengths.at? arc.target = some y ∧ x + arc.weight ≤ y) ∧
      ∀ node x, lengths.at? node = some x →
        ∃ walk, Arc.IsWalk arcs 0 walk node ∧ Arc.totalWeight walk = x := by
  cases hpaths : longestPaths? id nodes arcs with
  | none =>
      obtain ⟨node, cycle, hcycle, hpos⟩ :=
        exists_cycle_of_longestPaths?_eq_none hnodes hgrounded.within hpaths
      have := hvalue.totalWeight_cycle_le hcycle
      omega
  | some lengths =>
      obtain ⟨hfinal, hsettled⟩ := longestPaths?_eq_some hpaths
      have hwalks : ∀ node x, lengths.at? node = some x →
          ∃ walk, Arc.IsWalk arcs 0 walk node ∧ Arc.totalWeight walk = x := by
        intro node x hx
        rw [← hfinal] at hx
        obtain ⟨walk, hwalk, hweight⟩ := exists_walk_of_settle hx
        exact ⟨walk, hwalk.mono (Arc.sweepOrder_subset nodes arcs), hweight⟩
      obtain ⟨x, hx, hnonneg⟩ : ∃ x, lengths.at? 0 = some x ∧ 0 ≤ x :=
        hfinal ▸ noShorter_settle (nodes - 1) (start nodes) 0 0
          (at?_start.mpr ⟨rfl, hnodes, rfl⟩)
      have hroot : x = 0 := by
        obtain ⟨walk, hwalk, rfl⟩ := hwalks 0 x hx
        have := hvalue.totalWeight_cycle_le hwalk
        omega
      refine ⟨lengths, ?_, hroot ▸ hx, ?_, hwalks⟩
      · rw [← hfinal, size_settle, size_start]
      · intro arc hmem
        exact isSettled_iff.mp hsettled arc (hgrounded.within.subset_sweepOrder hmem)

/-- The least potential of a grounded system is reached by walks. -/
theorem exists_least_potential (hvalue : Arc.IsPotential arcs value)
    (hzero : value 0 = 0) (hhigh : ∀ node, value node ≤ high) :
    ∃ least : Nat → Int, Arc.IsPotential arcs least ∧ least 0 = 0 ∧
      (∀ node, low ≤ least node ∧ least node ≤ high) ∧
      ∀ node < nodes,
        ∃ walk, Arc.IsWalk arcs 0 walk node ∧ Arc.totalWeight walk = least node := by
  obtain ⟨lengths, hsize, hfirst, htight, hwalks⟩ :=
    exists_settled_walks hnodes hgrounded hvalue
  have hreached : ∀ node < nodes, ∃ x, lengths.at? node = some x ∧ low ≤ x := by
    intro node hlt
    rcases Nat.eq_zero_or_pos node with rfl | hpos
    · exact ⟨0, hfirst, hgrounded.low_nonpos⟩
    · obtain ⟨arc, hmem, hsource, rfl, hweight⟩ := hgrounded.reached node hpos hlt
      obtain ⟨y, hy, hle⟩ := htight arc hmem 0 (hsource ▸ hfirst)
      exact ⟨y, hy, by omega⟩
  refine ⟨fun node => (lengths.at? node).getD 0, ?_, by simp [hfirst], ?_, ?_⟩
  · intro arc hmem
    obtain ⟨x, hx, _⟩ := hreached arc.source (hgrounded.within arc hmem).1
    obtain ⟨y, hy, hle⟩ := htight arc hmem x hx
    simpa [hx, hy] using hle
  · intro node
    rcases Nat.lt_or_ge node nodes with hlt | hge
    · obtain ⟨x, hx, hle⟩ := hreached node hlt
      obtain ⟨walk, hwalk, rfl⟩ := hwalks node x hx
      have hbelow := hvalue.totalWeight_le hwalk
      have := hhigh node
      simp only [hx, Option.getD_some]
      omega
    · have hnone : lengths.at? node = none := by
        simp [at?, Array.getElem?_eq_none (hsize.trans_le hge)]
      simpa [hnone] using And.intro hgrounded.low_nonpos hgrounded.high_nonneg
  · intro node hlt
    obtain ⟨x, hx, _⟩ := hreached node hlt
    simpa [hx] using hwalks node x hx

end Grounded

/-- Lengths between a lower bound and a potential. -/
structure Between (low : Int) (value : Nat → Int) (lengths : Lengths) : Prop where
  below : lengths.Below value
  atLeast : ∀ node x, lengths.at? node = some x → low ≤ x

section Rounded

variable {keep : Int → Int} {arcs : List Arc} {nodes : Nat} {low high limit : Int}
  {value : Nat → Int}
  (hkeep : KeepsUpTo keep limit) (hnodes : 0 < nodes)
  (hgrounded : Arc.Grounded nodes low high limit arcs)
  (hvalue : Arc.IsPotential arcs value)

include hkeep hgrounded

/-- In this range, no sum of a length and a weight is rounded. -/
theorem Between.extensible {lengths : Lengths} (hbetween : lengths.Between low value)
    (hhigh : ∀ node, value node ≤ high) : lengths.Extensible keep arcs := by
  intro arc hmem x y hx hxy
  obtain ⟨hmin, hmax⟩ := hgrounded.weights arc hmem
  have := hbetween.atLeast arc.source x hx
  have := hbetween.below arc.source x hx
  have := hhigh arc.source
  exact hkeep.le_keep _ _ (by omega) (by omega) (by omega)

include hvalue

theorem Between.sweep {lengths : Lengths} (hbetween : lengths.Between low value)
    (hrange : ∀ node, low ≤ value node ∧ value node ≤ high)
    (hsize : lengths.size = nodes) (hfirst : ∃ x, lengths.at? 0 = some x ∧ 0 ≤ x) :
    (sweep keep arcs lengths).Between low value := by
  have hlowGe := hgrounded.low_ge
  have hhighLe := hgrounded.high_le
  have hextensible := hbetween.extensible hkeep hgrounded fun node => (hrange node).2
  constructor
  · refine sweep_below hkeep hvalue ?_ ?_ hbetween.below
    · exact fun node => hlowGe.trans (hrange node).1
    · exact fun node => (hrange node).2.trans hhighLe
  · intro node y hy
    obtain ⟨x, hx, hnonneg⟩ := hfirst
    have hlt : node < nodes := by
      have := at?_lt hy
      rwa [Lengths.sweep, size_foldl_relax, hsize] at this
    rcases Nat.eq_zero_or_pos node with rfl | hpos
    · obtain ⟨z, hz, hxz⟩ := noShorter_foldl keep arcs lengths 0 x hx
      have hyz : y = z := Option.some.inj (hy.symm.trans hz)
      have := hgrounded.low_nonpos
      omega
    · obtain ⟨arc, hmem, hsource, rfl, hweight⟩ := hgrounded.reached node hpos hlt
      obtain ⟨z, hz, hle⟩ := sweep_target hextensible hmem (hsize ▸ hlt) (hsource ▸ hx)
      have hyz : y = z := Option.some.inj (hy.symm.trans hz)
      omega

include hnodes

theorem between_iterate (hrange : ∀ node, low ≤ value node ∧ value node ≤ high)
    (hzero : value 0 = 0) (rounds : Nat) :
    ((Lengths.sweep keep arcs)^[rounds] (start nodes)).Between low value := by
  induction rounds with
  | zero =>
      constructor
      · intro node x hx
        obtain ⟨rfl, _, rfl⟩ := at?_start.mp hx
        exact hzero.ge
      · intro node x hx
        obtain ⟨rfl, _, rfl⟩ := at?_start.mp hx
        exact hgrounded.low_nonpos
  | succ rounds ih =>
      rw [Function.iterate_succ_apply']
      refine ih.sweep hkeep hgrounded hvalue hrange ?_ ?_
      · rw [size_sweep_iterate, size_start]
      · exact noShorter_iterate rounds (start nodes) 0 0
          (at?_start.mpr ⟨rfl, hnodes, rfl⟩)

/-- The sweeps reach the least potential, and nothing improves on that. -/
theorem exists_settled_between (hzero : value 0 = 0) (hhigh : ∀ node, value node ≤ high) :
    ∃ least : Nat → Int, (∀ node, low ≤ least node ∧ least node ≤ high) ∧
      (settle keep arcs (nodes - 1) (start nodes)).Between low least ∧
      (settle keep arcs (nodes - 1) (start nodes)).isSettled keep arcs = true := by
  obtain ⟨least, hleast, hroot, hrange, hwalks⟩ :=
    exists_least_potential hnodes hgrounded hvalue hzero hhigh
  have hbetween := between_iterate hkeep hnodes hgrounded hleast hrange hroot
  obtain ⟨sweeps, heq, hend⟩ := settle_eq keep arcs (nodes - 1) (start nodes)
  refine ⟨least, hrange, heq ▸ hbetween sweeps, ?_⟩
  rcases hend with hsettled | rfl
  · exact hsettled
  have hcovers := covers_sweep_iterate hnodes hgrounded.within
    (fun rounds => (hbetween rounds).extensible hkeep hgrounded
      fun node => (hrange node).2) (nodes - 1)
  rw [heq, isSettled_iff]
  intro arc hmem x hx
  obtain ⟨walk, hwalk, hweight⟩ := hwalks arc.target (hgrounded.within arc hmem).2
  obtain ⟨short, hshort, hlength, hle⟩ :=
    hwalk.exists_short hgrounded.within hnodes
      fun node cycle hcycle => hleast.totalWeight_cycle_le hcycle
  obtain ⟨y, hy, hshortLe⟩ := hcovers short arc.target hshort (by omega)
  refine ⟨y, hy, le_trans ?_ (hweight.ge.trans (hle.trans hshortLe))⟩
  have harc := hleast arc hmem
  have hbelow := (hbetween (nodes - 1)).below arc.source x hx
  have htarget := hrange arc.target
  have hlowGe := hgrounded.low_ge
  have hhighLe := hgrounded.high_le
  exact hkeep.keep_le _ _ (by omega) (by omega) (by omega)

end Rounded

end Lengths

/-- A grounded system with a potential has longest paths, which reach all nodes,
and rounding does not keep them from being found. -/
theorem exists_longestPaths? {keep : Int → Int} {arcs : List Arc} {nodes : Nat}
    {low high limit : Int} {value : Nat → Int} (hkeep : KeepsUpTo keep limit)
    (hnodes : 0 < nodes) (hgrounded : Arc.Grounded nodes low high limit arcs)
    (hvalue : Arc.IsPotential arcs value) (hzero : value 0 = 0)
    (hhigh : ∀ node, value node ≤ high) :
    ∃ lengths, longestPaths? keep nodes arcs = some lengths ∧
      ∀ node < nodes, ∃ x, lengths.at? node = some x ∧ low ≤ x ∧ x ≤ high := by
  obtain ⟨least, hrange, hbetween, hsettled⟩ := Lengths.exists_settled_between hkeep hnodes
    hgrounded.of_sweepOrder (hvalue.mono (Arc.sweepOrder_subset nodes arcs)) hzero hhigh
  obtain ⟨lengths, hlengths⟩ : ∃ lengths, lengths = Lengths.settle keep
      (Arc.sweepOrder nodes arcs) (nodes - 1) (Lengths.start nodes) := ⟨_, rfl⟩
  rw [← hlengths] at hbetween hsettled
  refine ⟨lengths, ?_, fun node hlt => ?_⟩
  · unfold longestPaths?
    simp only [← hlengths, hsettled, if_true]
  obtain ⟨first, hfirst, _⟩ : ∃ x, lengths.at? 0 = some x ∧ 0 ≤ x :=
    hlengths ▸ Lengths.noShorter_settle (nodes - 1) (Lengths.start nodes) 0 0
      (Lengths.at?_start.mpr ⟨rfl, hnodes, rfl⟩)
  have hreached : ∃ x, lengths.at? node = some x := by
    rcases Nat.eq_zero_or_pos node with rfl | hpos
    · exact ⟨first, hfirst⟩
    · obtain ⟨arc, hmem, hsource, rfl, _⟩ := hgrounded.of_sweepOrder.reached node hpos hlt
      obtain ⟨y, hy, _⟩ := Lengths.isSettled_iff.mp hsettled arc hmem first (hsource ▸ hfirst)
      exact ⟨y, hy⟩
  obtain ⟨x, hx⟩ := hreached
  exact ⟨x, hx, hbetween.atLeast node x hx,
    (hbetween.below node x hx).trans (hrange node).2⟩

end SlotScheduling
