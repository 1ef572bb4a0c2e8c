import SlotScheduling.Proofs.Difference.Solutions

/-!
# Least and greatest solutions

Where a slot and the weight of a constraint never add up to too much, no length
is rounded on the way to slots.  Weights far below zero are rounded themselves,
but the weight of an arc that is tight in the end is the difference of two
slots, and so it is exact.  The earliest slots are then the least solution, and
the latest slots the greatest one.
-/

namespace SlotScheduling

namespace Arc

/-- No weight is so large that its sum with a slot is rounded. -/
def Light (arcs : List Arc) : Prop := ∀ arc ∈ arcs, arc.weight ≤ 2 ^ 53 - Word.count

theorem Light.reversed {arcs : List Arc} (h : Light arcs) : Light (arcs.map reverse) := by
  intro reversed hreversed
  obtain ⟨arc, hmem, rfl⟩ := List.mem_map.mp hreversed
  exact h arc hmem

end Arc

namespace Lengths

section Light

variable {nodes : Nat} {arcs : List Arc} {final : Lengths}
  (hwithin : Arc.Within nodes arcs) (hloopless : Arc.Loopless arcs) (hlight : Arc.Light arcs)
  (hslots : final.SlotSized nodes)

include hwithin hloopless hlight hslots

/-- What improves the first node comes from a node that has the length of a slot
in the end. -/
theorem first_lt_relax {lengths : Lengths} {arc : Arc} (hmem : arc ∈ arcs)
    (hnext : (relax Significand.keep lengths arc.rounded).NoShorter final)
    (hfirst : ∀ x, lengths.at? 0 = some x → x < 2 ^ 53) :
    ∀ x, (relax Significand.keep lengths arc.rounded).at? 0 = some x → x < 2 ^ 53 := by
  intro z hz
  have hbefore := (noShorter_relax Significand.keep lengths arc.rounded).trans hnext
  rcases relax_cases Significand.keep lengths arc.rounded with h | ⟨x, hx, _, h⟩
  · exact hfirst z (h ▸ hz)
  · rw [h, at?_set] at hz
    by_cases hzero : arc.rounded.target = 0 ∧ arc.rounded.target < lengths.size
    · rw [if_pos hzero, Option.some.injEq] at hz
      obtain ⟨y, hy, hxy⟩ := hbefore arc.source x hx
      have hpos : 0 < arc.source :=
        Nat.pos_of_ne_zero fun hsource => hloopless arc hmem (hsource.trans hzero.1.symm)
      obtain ⟨y', hy', _, hhigh⟩ := hslots arc.source hpos (hwithin arc hmem).1
      obtain rfl : y' = y := Option.some.inj (hy'.symm.trans hy)
      have hweight := hlight arc hmem
      unfold Word.count at hhigh hweight
      have hkept : Significand.keep arc.weight ≤ 2 ^ 53 - 2 ^ 32 :=
        Significand.keepsUpTo_keep.keep_le _ _ (by omega) (by omega) hweight
      have hsum := Significand.keepsUpTo_keep.keep_le (2 ^ 53 - 1) (x + arc.rounded.weight)
        (by omega) (by omega) (by simp only [Arc.rounded]; omega)
      omega
    · rw [if_neg hzero] at hz
      exact hfirst z hz

theorem small_of_light (hnodes : 0 < nodes)
    (hpaths : longestPaths? Significand.keep nodes (arcs.map Arc.rounded) = some final) :
    final.Small (2 ^ 53) := by
  obtain ⟨hfinal, _⟩ := longestPaths?_eq_some hpaths
  obtain ⟨first, hfirst, hnonneg⟩ := at?_zero_of_longestPaths? hnodes hpaths
  have hrun : ∀ lengths, settle Significand.keep (Arc.sweepOrder nodes (arcs.map Arc.rounded))
      (nodes - 1) (start nodes) = lengths → lengths.NoShorter final →
      ∀ x, lengths.at? 0 = some x → x < 2 ^ 53 := by
    rintro lengths rfl
    refine settle_induction (P := fun lengths => lengths.NoShorter final →
      ∀ x, lengths.at? 0 = some x → x < 2 ^ 53) ?_ (nodes - 1) ?_
    · intro lengths rounded hrounded hbefore hnext
      obtain ⟨arc, hmem, rfl⟩ := List.mem_map.mp (Arc.sweepOrder_subset nodes _ hrounded)
      have hshorter := (noShorter_relax Significand.keep lengths arc.rounded).trans hnext
      exact first_lt_relax hwithin hloopless hlight hslots hmem hnext (hbefore hshorter)
    · intro _ x hx
      obtain ⟨_, _, rfl⟩ := at?_start.mp hx
      decide
  have hbound := hrun final hfinal (NoShorter.refl final) first hfirst
  intro node x hx
  rcases Nat.eq_zero_or_pos node with rfl | hpos
  · obtain rfl : x = first := Option.some.inj (hx.symm.trans hfirst)
    omega
  · have hlt : node < nodes := size_of_longestPaths? hpaths ▸ at?_lt hx
    obtain ⟨y, hy, hlow, hhigh⟩ := hslots node hpos hlt
    obtain rfl : x = y := Option.some.inj (hx.symm.trans hy)
    unfold Word.count at hlow hhigh
    omega

end Light

/-- Lengths of slots are below every potential, whatever the rounding did to the
weights of arcs that are not tight. -/
theorem below_of_small {nodes : Nat} {arcs : List Arc} {final : Lengths}
    (hpaths : longestPaths? Significand.keep nodes (arcs.map Arc.rounded) = some final)
    (hnodes : 0 < nodes) (hsmall : final.Small (2 ^ 53)) (hwithin : Arc.Within nodes arcs)
    (hslots : final.SlotSized nodes) {value : Nat → Int} (hvalue : Arc.IsPotential arcs value)
    (hzero : 0 ≤ value 0) : final.Below value := by
  obtain ⟨hfinal, hsettled⟩ := longestPaths?_eq_some hpaths
  intro node x hx
  refine reached_of_tight (P := fun node => ∀ x, final.at? node = some x → x ≤ value node)
    Significand.keepsUpTo_keep hsettled hsmall ?_ hfinal ?_ hx x hx
  · intro rounded hrounded x hsource hx htarget y hy
    obtain ⟨arc, hmem, rfl⟩ := List.mem_map.mp (Arc.sweepOrder_subset nodes _ hrounded)
    obtain ⟨x', hx', hxlow, hxhigh⟩ :=
      exists_length_of_slotSized hpaths hnodes hsmall hslots (hwithin arc hmem).1
    obtain ⟨y', hy', hylow, hyhigh⟩ :=
      exists_length_of_slotSized hpaths hnodes hsmall hslots (hwithin arc hmem).2
    obtain rfl : x' = x := Option.some.inj (hx'.symm.trans hx)
    obtain rfl : y' = y := Option.some.inj (hy'.symm.trans hy)
    have htight : y' = x' + Significand.keep arc.weight :=
      Option.some.inj (hy.symm.trans htarget)
    unfold Word.count at hxlow hxhigh hylow hyhigh
    have hexact : Significand.keep arc.weight ≤ arc.weight :=
      Significand.keepsUpTo_keep.le_of_le_keep (by omega) (by omega) le_rfl
    have hle := hsource x' hx
    have harc := hvalue arc hmem
    simp only [Arc.rounded] at hle ⊢
    omega
  · intro hfirst y hy
    obtain rfl : y = 0 := Option.some.inj (hy.symm.trans hfirst)
    exact hzero

end Lengths

namespace ConstraintSystem

variable {sys : ConstraintSystem} {slots : List (UnitId × Nat)}

/-- The earliest slots are the least solution. -/
theorem earliest_least (hclosed : sys.Closed) (hlight : Arc.Light sys.arcs)
    (h : sys.earliest = .ok slots) :
    sys.Satisfies (valuesOf slots) ∧ ∀ values, sys.Satisfies values →
      ∀ index < sys.unknowns.size, valuesOf slots index ≤ values index := by
  obtain ⟨hviolated, _, lengths, hpaths, hsized, hslots⟩ := earliest_eq_ok hclosed h
  have hwithin := within_arcs hclosed
  have hsmall := Lengths.small_of_light hwithin (loopless_arcs hclosed) hlight hsized (by omega)
    hpaths
  refine ⟨satisfies_of_lengths hclosed hviolated hpaths hsized hsmall hslots,
    fun values hvalues index hindex => ?_⟩
  have hpotential : Arc.IsPotential sys.arcs (nodeValue values) := by
    intro arc hmem
    have := hvalues.2 arc hmem
    omega
  exact Lengths.below_of_small hpaths (by omega) hsmall hwithin hsized hpotential le_rfl
    (index + 1) _ (hslots index hindex)

/-- The latest slots are the greatest solution. -/
theorem latest_greatest (hclosed : sys.Closed) (hlight : Arc.Light sys.arcs)
    (h : sys.latest = .ok slots) :
    sys.Satisfies (valuesOf slots) ∧ ∀ values, sys.Satisfies values →
      ∀ index < sys.unknowns.size, values index ≤ valuesOf slots index := by
  obtain ⟨hviolated, _, lengths, hpaths, hsized, hslots⟩ := latest_eq_ok hclosed h
  have hwithin := within_reversed hclosed
  have hsmall := Lengths.small_of_light hwithin (loopless_reversed hclosed) hlight.reversed hsized
    (by omega) hpaths
  refine ⟨satisfies_of_reversed hclosed hviolated hpaths hsized hsmall hslots,
    fun values hvalues index hindex => ?_⟩
  -- Against the arcs it is the negated values that grow.
  have hpotential :
      Arc.IsPotential (sys.arcs.map Arc.reverse) fun node => -nodeValue values node := by
    intro reversed hreversed
    obtain ⟨arc, hmem, rfl⟩ := List.mem_map.mp hreversed
    have := hvalues.2 arc hmem
    simp only [Arc.reverse]
    omega
  have hbelow := Lengths.below_of_small hpaths (by omega) hsmall hwithin hsized hpotential le_rfl
    (index + 1) _ (hslots index hindex)
  simp only [nodeValue] at hbelow
  omega

end ConstraintSystem

end SlotScheduling
