import SlotScheduling.Proofs.Difference.Constraints
import SlotScheduling.Proofs.Difference.LongestPaths
import SlotScheduling.Proofs.Difference.Rounding
import SlotScheduling.Proofs.Loops

/-!
# Slots that solve a system

The slots that are read off longest paths meet every constraint of the system.
Rounding is no obstacle: slots are small, and where one end of a constraint is
not far below zero, the length of the first node is small as well.
-/

namespace SlotScheduling

/-- The arc as a solver of limited precision sees it. -/
def Arc.rounded (arc : Arc) : Arc :=
  { arc with weight := Significand.keep arc.weight }

namespace Arc

/-- If an arc leaves the first node at all, then one of them does not weigh so
little that its sum with a slot is rounded. -/
def Rooted (arcs : List Arc) : Prop :=
  ∀ arc ∈ arcs, arc.source = 0 →
    ∃ other ∈ arcs, other.source = 0 ∧ Word.count - 2 ^ 53 ≤ other.weight

/-- No arc leads from a node to itself. -/
def Loopless (arcs : List Arc) : Prop := ∀ arc ∈ arcs, arc.source ≠ arc.target

theorem within_map_rounded {nodes : Nat} {arcs : List Arc} (hwithin : Within nodes arcs) :
    Within nodes (arcs.map rounded) := by
  intro rounded hrounded
  obtain ⟨arc, hmem, rfl⟩ := List.mem_map.mp hrounded
  exact hwithin arc hmem

end Arc

namespace Lengths

/-- All nodes but the first are reached by lengths that can be slots, or the
negations of slots. -/
def SlotSized (nodes : Nat) (lengths : Lengths) : Prop :=
  ∀ node, 0 < node → node < nodes →
    ∃ x, lengths.at? node = some x ∧ -Word.count < x ∧ x < Word.count

section

variable {keep : Int → Int} {nodes : Nat} {arcs : List Arc} {lengths : Lengths}

theorem at?_zero_of_longestPaths? (hnodes : 0 < nodes)
    (h : longestPaths? keep nodes arcs = some lengths) :
    ∃ x, lengths.at? 0 = some x ∧ 0 ≤ x := by
  obtain ⟨hfinal, _⟩ := longestPaths?_eq_some h
  rw [← hfinal]
  exact noShorter_settle (nodes - 1) (start nodes) 0 0
    (at?_start.mpr ⟨rfl, hnodes, rfl⟩)

theorem size_of_longestPaths? (h : longestPaths? keep nodes arcs = some lengths) :
    Array.size lengths = nodes := by
  rw [← (longestPaths?_eq_some h).1, size_settle, size_start]

/-- What is reached is reached by an arc that leaves the first node. -/
theorem exists_arc_of_reached (h : longestPaths? keep nodes arcs = some lengths)
    {node : Nat} (hpos : 0 < node) {x : Int} (hx : lengths.at? node = some x) :
    ∃ arc ∈ arcs, arc.source = 0 := by
  by_contra hnone
  obtain ⟨hfinal, _⟩ := longestPaths?_eq_some h
  have hroot : ∀ node x, lengths.at? node = some x → node = 0 := by
    rw [← hfinal]
    refine settle_induction
      (P := fun lengths => ∀ node x, lengths.at? node = some x → node = 0) ?_ _ ?_
    · intro lengths arc hmem hroot node x hx
      rcases relax_cases keep lengths arc with heq | ⟨y, hy, _, _⟩
      · exact hroot node x (heq ▸ hx)
      · exact absurd ⟨arc, Arc.sweepOrder_subset nodes arcs hmem, hroot _ y hy⟩ hnone
    · intro node x hx
      exact (at?_start.mp hx).1
  exact hpos.ne' (hroot node x hx)

end

section Slots

variable {nodes : Nat} {arcs : List Arc} {lengths : Lengths}
  (hpaths : longestPaths? Significand.keep nodes (arcs.map Arc.rounded) = some lengths)
  (hnodes : 0 < nodes) (hwithin : Arc.Within nodes arcs)
  (hloopless : Arc.Loopless arcs) (hrooted : Arc.Rooted arcs)
  (hslots : lengths.SlotSized nodes)

include hpaths hnodes hwithin hloopless hrooted hslots

theorem small_of_slotSized : lengths.Small (2 ^ 53) := by
  obtain ⟨hfinal, hsettled⟩ := longestPaths?_eq_some hpaths
  obtain ⟨first, hfirst, hnonneg⟩ := at?_zero_of_longestPaths? hnodes hpaths
  have hbound : first < 2 ^ 53 := by
    rcases Nat.lt_or_ge 1 nodes with hmany | hone
    · obtain ⟨x, hx, _⟩ := hslots 1 (by omega) hmany
      obtain ⟨rounded, hrounded, hleaves⟩ := exists_arc_of_reached hpaths (by omega) hx
      obtain ⟨arc, hmem, rfl⟩ := List.mem_map.mp hrounded
      obtain ⟨heavy, hheavy, hsource, hweight⟩ := hrooted arc hmem hleaves
      have hne : heavy.target ≠ 0 := fun h => hloopless heavy hheavy (hsource.trans h.symm)
      obtain ⟨y, hy, hlow, hhigh⟩ :=
        hslots heavy.target (Nat.pos_of_ne_zero hne) (hwithin heavy hheavy).2
      obtain ⟨y', hy', hle⟩ := isSettled_iff.mp hsettled heavy.rounded
        ((Arc.within_map_rounded hwithin).subset_sweepOrder (List.mem_map_of_mem hheavy))
        first (by rw [← hfirst]; exact congrArg _ hsource)
      obtain rfl : y' = y := Option.some.inj (hy'.symm.trans hy)
      unfold Word.count at hlow hhigh hweight
      have hsum := Significand.keepsUpTo_keep.le_of_keep_le (by omega) (by omega) hle
      have hkept := Significand.keepsUpTo_keep.le_keep _ _ (by omega) (by omega) hweight
      simp only [Arc.rounded] at hsum
      omega
    · have hstart : start nodes = lengths := by
        rw [← hfinal, show nodes - 1 = 0 by omega]
        rfl
      rw [← hstart] at hfirst
      have := (at?_start.mp hfirst).2.2
      omega
  intro node x hx
  rcases Nat.eq_zero_or_pos node with rfl | hpos
  · have : x = first := Option.some.inj (hx.symm.trans hfirst)
    omega
  · have hlt : node < nodes := size_of_longestPaths? hpaths ▸ at?_lt hx
    obtain ⟨y, hy, hlow, hhigh⟩ := hslots node hpos hlt
    have : x = y := Option.some.inj (hx.symm.trans hy)
    unfold Word.count at hlow hhigh
    omega

end Slots

section Small

variable {nodes : Nat} {arcs : List Arc} {lengths : Lengths}
  (hpaths : longestPaths? Significand.keep nodes (arcs.map Arc.rounded) = some lengths)
  (hnodes : 0 < nodes) (hsmall : lengths.Small (2 ^ 53))

include hpaths hnodes hsmall

theorem first_eq_zero : lengths.at? 0 = some 0 := by
  obtain ⟨hfinal, hsettled⟩ := longestPaths?_eq_some hpaths
  exact at?_zero_of_isSettled Significand.keepsUpTo_keep hsettled hsmall hfinal hnodes

theorem exists_length_of_slotSized (hslots : lengths.SlotSized nodes) {node : Nat}
    (hlt : node < nodes) :
    ∃ x, lengths.at? node = some x ∧ -Word.count < x ∧ x < Word.count := by
  rcases Nat.eq_zero_or_pos node with rfl | hpos
  · exact ⟨0, first_eq_zero hpaths hnodes hsmall, by decide, by decide⟩
  · exact hslots node hpos hlt

/-- The lengths meet the constraints that the arcs stand for, with the weights
the arcs have before they are rounded. -/
theorem weight_le_of_slotSized (hwithin : Arc.Within nodes arcs) (hslots : lengths.SlotSized nodes)
    {arc : Arc} (hmem : arc ∈ arcs) :
    ∃ x y, lengths.at? arc.source = some x ∧ lengths.at? arc.target = some y ∧
      x + arc.weight ≤ y := by
  obtain ⟨hfinal, hsettled⟩ := longestPaths?_eq_some hpaths
  obtain ⟨x, hx, hxlow, hxhigh⟩ :=
    exists_length_of_slotSized hpaths hnodes hsmall hslots (hwithin arc hmem).1
  obtain ⟨y, hy, hylow, hyhigh⟩ :=
    exists_length_of_slotSized hpaths hnodes hsmall hslots (hwithin arc hmem).2
  have hrounded : arc.rounded ∈ Arc.sweepOrder nodes (arcs.map Arc.rounded) :=
    (Arc.within_map_rounded hwithin).subset_sweepOrder (List.mem_map_of_mem hmem)
  obtain ⟨y', hy', hle⟩ :=
    le_of_isSettled Significand.keepsUpTo_keep hsettled hsmall hrounded hx
  obtain rfl : y' = y := Option.some.inj (hy'.symm.trans hy)
  refine ⟨x, y', hx, hy, ?_⟩
  unfold Word.count at hxlow hxhigh hylow hyhigh
  have hkept : Significand.keep arc.weight ≤ y' - x := by
    simp only [Arc.rounded] at hle
    omega
  have := Significand.keepsUpTo_keep.le_of_keep_le (by omega) (by omega) hkept
  omega

end Small

section Slots

variable {nodes : Nat} {arcs : List Arc} {lengths : Lengths}
  (hpaths : longestPaths? Significand.keep nodes (arcs.map Arc.rounded) = some lengths)
  (hnodes : 0 < nodes) (hwithin : Arc.Within nodes arcs)
  (hloopless : Arc.Loopless arcs) (hrooted : Arc.Rooted arcs)
  (hslots : lengths.SlotSized nodes)

include hpaths hnodes hwithin hloopless hrooted hslots

/-- No values that meet the constraints, and are not negative at the first node,
are less than the lengths. -/
theorem below_of_slotSized (hexact : ∀ arc ∈ arcs, Significand.keep arc.weight = arc.weight)
    {value : Nat → Int} (hvalue : Arc.IsPotential arcs value) (hzero : 0 ≤ value 0) :
    lengths.Below value := by
  obtain ⟨hfinal, hsettled⟩ := longestPaths?_eq_some hpaths
  have hsmall := small_of_slotSized hpaths hnodes hwithin hloopless hrooted hslots
  refine below_of_isSettled Significand.keepsUpTo_keep hsettled hsmall hfinal ?_ hzero
  intro rounded hrounded
  obtain ⟨arc, hmem, rfl⟩ :=
    List.mem_map.mp (Arc.sweepOrder_subset nodes _ hrounded)
  have := hvalue arc hmem
  simp only [Arc.rounded, hexact arc hmem]
  exact this

end Slots

end Lengths

namespace ConstraintSystem

/-- The value that some placements give to a variable. -/
def valuesOf (slots : List (UnitId × Nat)) (index : Nat) : Int :=
  (slots[index]?.map Prod.snd).getD 0

theorem slotOf?_eq_some {x : Int} {slot : Nat} :
    slotOf? x = some slot ↔ x = slot ∧ slot < Word.count := by
  unfold slotOf?
  split
  next h =>
    simp only [Option.some.injEq]
    omega
  next h =>
    simp only [reduceCtorEq, false_iff]
    omega

variable {sys : ConstraintSystem}

theorem keptArcs_eq (hclosed : sys.Closed) : sys.keptArcs = sys.arcs.map Arc.rounded := by
  refine List.map_congr_left fun arc hmem => ?_
  obtain ⟨_, hsource, htarget⟩ := hclosed arc hmem
  rw [solverNode_of_le hsource, solverNode_of_le htarget]
  rfl

theorem pathLengths_eq_ok {arcs : List Arc} {lengths : Lengths}
    (h : sys.pathLengths arcs = .ok lengths) :
    sys.violated = none ∧
      longestPaths? Significand.keep (sys.unknowns.size + 1) arcs = some lengths := by
  unfold pathLengths at h
  cases hviolated : sys.violated with
  | some reason => simp [hviolated] at h
  | none =>
      refine ⟨rfl, ?_⟩
      simp only [hviolated] at h
      split at h
      · cases h
      · split at h
        next found hfound =>
          cases h
          exact hfound
        next => cases h

/-- Slots are read for all variables, in order, from values that can be slots. -/
theorem readSlots_eq_ok {value? : Nat → Checked (Option Int)}
    {slots : List (UnitId × Nat)} (h : sys.readSlots value? = .ok slots) :
    slots.map Prod.fst = sys.unknowns.toList ∧
      ∀ index < sys.unknowns.size, ∃ slot : Nat, slot < Word.count ∧
        value? (index + 1) = .ok (some (slot : Int)) ∧ valuesOf slots index = slot := by
  have hall := Checked.mapM_eq_ok h
  have hlength : slots.length = sys.unknowns.size := by
    simpa using hall.length_eq.symm
  have hat : ∀ (index : Nat) (hindex : index < sys.unknowns.size),
      slots[index].1 = sys.unknowns[index] ∧ slots[index].2 < Word.count ∧
        value? (index + 1) = .ok (some (slots[index].2 : Int)) := by
    intro index hindex
    have hplaced := hall.get (i := index) (by simpa using hindex) (by omega)
    simp only [List.get_eq_getElem, List.getElem_zipIdx, Array.getElem_toList,
      Nat.zero_add] at hplaced
    obtain ⟨value, hvalue, hplaced⟩ := Checked.bind_eq_ok.mp hplaced
    split at hplaced
    next slot hslot =>
      have hsame := Checked.pure_eq_ok.mp hplaced
      obtain ⟨x, rfl, hx⟩ := Option.bind_eq_some_iff.mp hslot
      obtain ⟨rfl, hlt⟩ := slotOf?_eq_some.mp hx
      rw [hsame]
      exact ⟨rfl, hlt, hvalue⟩
    next => cases hplaced
  refine ⟨List.ext_getElem (by simpa using hlength) ?_, ?_⟩
  · intro index hindex hvariable
    simpa using (hat index (by simpa using hvariable)).1
  · intro index hindex
    obtain ⟨_, hlt, hvalue⟩ := hat index hindex
    refine ⟨slots[index].2, hlt, hvalue, ?_⟩
    simp [valuesOf, List.getElem?_eq_getElem (show index < slots.length by omega)]

theorem eq_of_clampLength {x : Int} {slot : Nat} (hslot : slot < Word.count)
    (h : clampLength x = slot) : x = slot := by
  unfold clampLength Offset.bound at h
  unfold Word.count at hslot
  omega

theorem eq_of_neg_clampLength {x : Int} {slot : Nat} (hslot : slot < Word.count)
    (h : -clampLength x = slot) : x = -slot := by
  unfold clampLength Offset.bound at h
  unfold Word.count at hslot
  omega

theorem slotSized_of_succ {lengths : Lengths} {nodes : Nat}
    (h : ∀ index < nodes, ∃ x : Int, lengths.at? (index + 1) = some x ∧
      x.natAbs < Word.count) : lengths.SlotSized (nodes + 1) := by
  intro node hpos hlt
  obtain ⟨index, rfl⟩ := Nat.exists_eq_succ_of_ne_zero hpos.ne'
  obtain ⟨x, hx, hsmall⟩ := h index (by omega)
  exact ⟨x, hx, by omega, by omega⟩

theorem earliest_eq_ok {slots : List (UnitId × Nat)} (hclosed : sys.Closed)
    (h : sys.earliest = .ok slots) :
    sys.violated = none ∧ slots.map Prod.fst = sys.unknowns.toList ∧
      ∃ lengths, longestPaths? Significand.keep (sys.unknowns.size + 1)
          (sys.arcs.map Arc.rounded) = some lengths ∧
        lengths.SlotSized (sys.unknowns.size + 1) ∧
        ∀ index < sys.unknowns.size,
          lengths.at? (index + 1) = some (valuesOf slots index) := by
  unfold earliest at h
  obtain ⟨lengths, hlengths, h⟩ := Checked.bind_eq_ok.mp h
  obtain ⟨hviolated, hpaths⟩ := pathLengths_eq_ok hlengths
  obtain ⟨hunits, hslots⟩ := readSlots_eq_ok h
  rw [keptArcs_eq hclosed] at hpaths
  have hread : ∀ index < sys.unknowns.size, ∃ slot : Nat, slot < Word.count ∧
      lengths.at? (index + 1) = some (slot : Int) ∧ valuesOf slots index = slot := by
    intro index hindex
    obtain ⟨slot, hlt, hread, hvalue⟩ := hslots index hindex
    obtain ⟨x, hx, hclamp⟩ := Option.map_eq_some_iff.mp (Checked.pure_eq_ok.mp hread).symm
    exact ⟨slot, hlt, eq_of_clampLength hlt hclamp ▸ hx, hvalue⟩
  refine ⟨hviolated, hunits, lengths, hpaths, slotSized_of_succ ?_, ?_⟩
  · intro index hindex
    obtain ⟨slot, hlt, hx, _⟩ := hread index hindex
    exact ⟨slot, hx, hlt⟩
  · intro index hindex
    obtain ⟨slot, _, hx, hvalue⟩ := hread index hindex
    rw [hx, hvalue]

theorem latest_eq_ok {slots : List (UnitId × Nat)} (hclosed : sys.Closed)
    (h : sys.latest = .ok slots) :
    sys.violated = none ∧ slots.map Prod.fst = sys.unknowns.toList ∧
      ∃ lengths, longestPaths? Significand.keep (sys.unknowns.size + 1)
          ((sys.arcs.map Arc.reverse).map Arc.rounded) = some lengths ∧
        lengths.SlotSized (sys.unknowns.size + 1) ∧
        ∀ index < sys.unknowns.size,
          lengths.at? (index + 1) = some (-valuesOf slots index) := by
  unfold latest at h
  obtain ⟨lengths, hlengths, h⟩ := Checked.bind_eq_ok.mp h
  obtain ⟨hviolated, hpaths⟩ := pathLengths_eq_ok hlengths
  obtain ⟨hunits, hslots⟩ := readSlots_eq_ok h
  rw [keptArcs_eq hclosed, List.map_map,
    show Arc.reverse ∘ Arc.rounded = Arc.rounded ∘ Arc.reverse from rfl,
    ← List.map_map] at hpaths
  have hread : ∀ index < sys.unknowns.size, ∃ slot : Nat, slot < Word.count ∧
      lengths.at? (index + 1) = some (-slot : Int) ∧ valuesOf slots index = slot := by
    intro index hindex
    obtain ⟨slot, hlt, hread, hvalue⟩ := hslots index hindex
    split at hread
    next => cases hread
    next x hx =>
      obtain ⟨y, hy, heq⟩ := Checked.map_eq_ok.mp hread
      obtain rfl := Option.some.inj heq
      have hneg := (Offset.check_eq_ok.mp hy).2
      exact ⟨slot, hlt, eq_of_neg_clampLength hlt hneg.symm ▸ hx, hvalue⟩
  refine ⟨hviolated, hunits, lengths, hpaths, slotSized_of_succ ?_, ?_⟩
  · intro index hindex
    obtain ⟨slot, hlt, hx, _⟩ := hread index hindex
    exact ⟨-slot, hx, by omega⟩
  · intro index hindex
    obtain ⟨slot, _, hx, hvalue⟩ := hread index hindex
    rw [hx, hvalue]

theorem within_arcs (hclosed : sys.Closed) :
    Arc.Within (sys.unknowns.size + 1) sys.arcs := by
  intro arc hmem
  obtain ⟨_, hsource, htarget⟩ := hclosed arc hmem
  omega

theorem within_reversed (hclosed : sys.Closed) :
    Arc.Within (sys.unknowns.size + 1) (sys.arcs.map Arc.reverse) := by
  intro reversed hreversed
  obtain ⟨arc, hmem, rfl⟩ := List.mem_map.mp hreversed
  exact (within_arcs hclosed arc hmem).symm

theorem loopless_arcs (hclosed : sys.Closed) : Arc.Loopless sys.arcs :=
  fun arc hmem => (hclosed arc hmem).1

theorem loopless_reversed (hclosed : sys.Closed) :
    Arc.Loopless (sys.arcs.map Arc.reverse) := by
  intro reversed hreversed
  obtain ⟨arc, hmem, rfl⟩ := List.mem_map.mp hreversed
  exact (loopless_arcs hclosed arc hmem).symm

theorem forall_nodes {P : Nat → Prop} (hzero : P 0)
    (hvariables : ∀ index < sys.unknowns.size, P (index + 1)) :
    ∀ node ≤ sys.unknowns.size, P node := by
  intro node hnode
  cases node with
  | zero => exact hzero
  | succ index => exact hvariables index hnode

theorem valuesOf_nonneg (slots : List (UnitId × Nat)) (index : Nat) :
    0 ≤ valuesOf slots index := by
  unfold valuesOf
  cases slots[index]? <;> simp

theorem earliest_isWord {slots : List (UnitId × Nat)} (hclosed : sys.Closed)
    (h : sys.earliest = .ok slots) {index : Nat} (hindex : index < sys.unknowns.size) :
    0 ≤ valuesOf slots index ∧ valuesOf slots index < Word.count := by
  obtain ⟨_, _, lengths, _, hsized, hslots⟩ := earliest_eq_ok hclosed h
  obtain ⟨x, hx, _, hlt⟩ := hsized (index + 1) (by omega) (by omega)
  obtain rfl := Option.some.inj (hx.symm.trans (hslots index hindex))
  exact ⟨valuesOf_nonneg slots index, hlt⟩

theorem latest_isWord {slots : List (UnitId × Nat)} (hclosed : sys.Closed)
    (h : sys.latest = .ok slots) {index : Nat} (hindex : index < sys.unknowns.size) :
    valuesOf slots index < Word.count := by
  obtain ⟨_, _, lengths, _, hsized, hslots⟩ := latest_eq_ok hclosed h
  obtain ⟨x, hx, hlow, _⟩ := hsized (index + 1) (by omega) (by omega)
  obtain rfl := Option.some.inj (hx.symm.trans (hslots index hindex))
  omega

/-- Slots that are read off short longest paths are a solution. -/
theorem satisfies_of_lengths {slots : List (UnitId × Nat)} {lengths : Lengths}
    (hclosed : sys.Closed) (hviolated : sys.violated = none)
    (hpaths : longestPaths? Significand.keep (sys.unknowns.size + 1)
      (sys.arcs.map Arc.rounded) = some lengths)
    (hsized : lengths.SlotSized (sys.unknowns.size + 1)) (hsmall : lengths.Small (2 ^ 53))
    (hslots : ∀ index < sys.unknowns.size,
      lengths.at? (index + 1) = some (valuesOf slots index)) :
    sys.Satisfies (valuesOf slots) := by
  have hlengths : ∀ node ≤ sys.unknowns.size,
      lengths.at? node = some (nodeValue (valuesOf slots) node) :=
    forall_nodes (Lengths.first_eq_zero hpaths (by omega) hsmall) hslots
  refine ⟨hviolated, fun arc hmem => ?_⟩
  obtain ⟨_, hsource, htarget⟩ := hclosed arc hmem
  obtain ⟨x, y, hx, hy, hle⟩ := Lengths.weight_le_of_slotSized hpaths (by omega) hsmall
    (within_arcs hclosed) hsized hmem
  obtain rfl := Option.some.inj (hx.symm.trans (hlengths _ hsource))
  obtain rfl := Option.some.inj (hy.symm.trans (hlengths _ htarget))
  omega

/-- Slots that are read off short longest paths against the arcs are a solution. -/
theorem satisfies_of_reversed {slots : List (UnitId × Nat)} {lengths : Lengths}
    (hclosed : sys.Closed) (hviolated : sys.violated = none)
    (hpaths : longestPaths? Significand.keep (sys.unknowns.size + 1)
      ((sys.arcs.map Arc.reverse).map Arc.rounded) = some lengths)
    (hsized : lengths.SlotSized (sys.unknowns.size + 1)) (hsmall : lengths.Small (2 ^ 53))
    (hslots : ∀ index < sys.unknowns.size,
      lengths.at? (index + 1) = some (-valuesOf slots index)) :
    sys.Satisfies (valuesOf slots) := by
  have hlengths : ∀ node ≤ sys.unknowns.size,
      lengths.at? node = some (-nodeValue (valuesOf slots) node) :=
    forall_nodes (Lengths.first_eq_zero hpaths (by omega) hsmall) hslots
  refine ⟨hviolated, fun arc hmem => ?_⟩
  obtain ⟨_, hsource, htarget⟩ := hclosed arc hmem
  obtain ⟨x, y, hx, hy, hle⟩ := Lengths.weight_le_of_slotSized hpaths (by omega) hsmall
    (within_reversed hclosed) hsized (List.mem_map_of_mem hmem)
  obtain rfl := Option.some.inj (hx.symm.trans (hlengths _ htarget))
  obtain rfl := Option.some.inj (hy.symm.trans (hlengths _ hsource))
  simp only [Arc.reverse] at hle
  omega

theorem satisfies_earliest {slots : List (UnitId × Nat)} (hclosed : sys.Closed)
    (hrooted : Arc.Rooted sys.arcs) (h : sys.earliest = .ok slots) :
    sys.Satisfies (valuesOf slots) := by
  obtain ⟨hviolated, _, lengths, hpaths, hsized, hslots⟩ := earliest_eq_ok hclosed h
  have hsmall := Lengths.small_of_slotSized hpaths (by omega) (within_arcs hclosed)
    (loopless_arcs hclosed) hrooted hsized
  exact satisfies_of_lengths hclosed hviolated hpaths hsized hsmall hslots

theorem satisfies_latest {slots : List (UnitId × Nat)} (hclosed : sys.Closed)
    (hrooted : Arc.Rooted (sys.arcs.map Arc.reverse)) (h : sys.latest = .ok slots) :
    sys.Satisfies (valuesOf slots) := by
  obtain ⟨hviolated, _, lengths, hpaths, hsized, hslots⟩ := latest_eq_ok hclosed h
  have hsmall := Lengths.small_of_slotSized hpaths (by omega) (within_reversed hclosed)
    (loopless_reversed hclosed) hrooted hsized
  exact satisfies_of_reversed hclosed hviolated hpaths hsized hsmall hslots

theorem earliest_le {slots : List (UnitId × Nat)} (hclosed : sys.Closed)
    (hrooted : Arc.Rooted sys.arcs)
    (hexact : ∀ arc ∈ sys.arcs, Significand.keep arc.weight = arc.weight)
    (h : sys.earliest = .ok slots) {values : Nat → Int} (hvalues : sys.Satisfies values)
    {index : Nat} (hindex : index < sys.unknowns.size) :
    valuesOf slots index ≤ values index := by
  obtain ⟨_, _, lengths, hpaths, hsized, hslots⟩ := earliest_eq_ok hclosed h
  have hpotential : Arc.IsPotential sys.arcs (nodeValue values) := by
    intro arc hmem
    have := hvalues.2 arc hmem
    omega
  exact Lengths.below_of_slotSized hpaths (by omega) (within_arcs hclosed)
    (loopless_arcs hclosed) hrooted hsized hexact hpotential le_rfl
    (index + 1) _ (hslots index hindex)

/-! ## Existence of solutions -/

theorem find?_outside_eq_none {arcs : List Arc} {nodes : Nat} (hwithin : Arc.Within nodes arcs) :
    (arcs.find? fun arc => nodes ≤ arc.source ∨ nodes ≤ arc.target) = none := by
  refine List.find?_eq_none.mpr fun arc hmem => ?_
  have := hwithin arc hmem
  simp only [decide_eq_true_eq, not_or, not_le]
  exact this

/-- Longest paths over arcs between nodes of the system are the answer if there
are any, and there is no solution if there are none. -/
theorem pathLengths_of_within {arcs : List Arc}
    (hwithin : Arc.Within (sys.unknowns.size + 1) arcs) (hviolated : sys.violated = none) :
    (∃ lengths, longestPaths? Significand.keep (sys.unknowns.size + 1) arcs = some lengths ∧
        sys.pathLengths arcs = .ok lengths) ∨
      longestPaths? Significand.keep (sys.unknowns.size + 1) arcs = none ∧
        ∃ reason, sys.pathLengths arcs = .error (.error (.infeasible reason)) := by
  unfold pathLengths
  simp only [hviolated, find?_outside_eq_none hwithin]
  cases longestPaths? Significand.keep (sys.unknowns.size + 1) arcs with
  | some lengths => exact Or.inl ⟨lengths, rfl, rfl⟩
  | none => exact Or.inr ⟨rfl, _, rfl⟩

theorem exists_readSlots {value? : Nat → Checked (Option Int)}
    (h : ∀ index < sys.unknowns.size, ∃ slot : Nat, slot < Word.count ∧
      value? (index + 1) = .ok (some (slot : Int))) :
    ∃ slots, sys.readSlots value? = .ok slots := by
  refine Checked.exists_mapM_eq_ok fun placed hmem => ?_
  obtain ⟨_, hlt, _⟩ := List.mem_zipIdx hmem
  obtain ⟨slot, hslot, hread⟩ := h placed.2 (by simpa using hlt)
  refine ⟨(placed.1, slot), ?_⟩
  have hsome : (some (slot : Int)).bind slotOf? = some slot :=
    slotOf?_eq_some.mpr ⟨rfl, hslot⟩
  simp only [hread, Checked.ok_bind, hsome]
  rfl

theorem readSlots_eq_error {value? : Nat → Checked (Option Int)} {failure : Failure}
    (hread : ∀ node, ∃ value, value? node = .ok value)
    (h : sys.readSlots value? = .error failure) :
    ∃ reason, failure = .error (.infeasible reason) := by
  obtain ⟨placed, _, hplaced⟩ := Checked.mapM_eq_error h
  obtain ⟨value, hvalue⟩ := hread (placed.2 + 1)
  simp only [hvalue, Checked.ok_bind] at hplaced
  split at hplaced
  · cases hplaced
  · cases hplaced
    exact ⟨_, rfl⟩

/-- The only answers are slots and that there is no solution. -/
theorem earliest_cases (hclosed : sys.Closed) :
    (∃ slots, sys.earliest = .ok slots) ∨
      ∃ reason, sys.earliest = .error (.error (.infeasible reason)) := by
  cases hviolated : sys.violated with
  | some reason =>
      exact Or.inr ⟨reason, by simp only [earliest, pathLengths, hviolated]; rfl⟩
  | none =>
      have hwithin := Arc.within_map_rounded (within_arcs hclosed)
      unfold earliest
      rw [keptArcs_eq hclosed]
      rcases pathLengths_of_within hwithin hviolated with
        ⟨lengths, _, hlengths⟩ | ⟨_, reason, hreason⟩
      · rw [hlengths, Checked.ok_bind]
        cases hread : sys.readSlots fun node => pure ((lengths.at? node).map clampLength) with
        | ok slots => exact Or.inl ⟨slots, rfl⟩
        | error failure =>
            obtain ⟨reason, rfl⟩ := readSlots_eq_error (fun node => ⟨_, rfl⟩) hread
            exact Or.inr ⟨reason, rfl⟩
      · rw [hreason]
        exact Or.inr ⟨reason, rfl⟩

theorem rounded_eq_self {arcs : List Arc}
    (hexact : ∀ arc ∈ arcs, arc.weight.natAbs ≤ 2 ^ 53) : arcs.map Arc.rounded = arcs := by
  conv_rhs => rw [← List.map_id arcs]
  refine List.map_congr_left fun arc hmem => ?_
  simp only [Arc.rounded, Significand.keep_of_natAbs_le (hexact arc hmem), id]

/-- The value of a node, and zero for a number that is no node of the system. -/
def valueAt (sys : ConstraintSystem) (values : Nat → Int) (node : Nat) : Int :=
  if node ≤ sys.unknowns.size then nodeValue values node else 0

theorem isPotential_valueAt (hclosed : sys.Closed) {values : Nat → Int}
    (hvalues : sys.Satisfies values) : Arc.IsPotential sys.arcs (sys.valueAt values) := by
  intro arc hmem
  obtain ⟨_, hsource, htarget⟩ := hclosed arc hmem
  have := hvalues.2 arc hmem
  simp only [valueAt, if_pos hsource, if_pos htarget]
  omega

theorem valueAt_isWord {values : Nat → Int}
    (hwords : ∀ index < sys.unknowns.size, 0 ≤ values index ∧ values index < Word.count)
    (node : Nat) : 0 ≤ sys.valueAt values node ∧ sys.valueAt values node < Word.count := by
  have hzero : (0 : Int) ≤ 0 ∧ (0 : Int) < Word.count := by decide
  have hnodes : ∀ node ≤ sys.unknowns.size,
      0 ≤ nodeValue values node ∧ nodeValue values node < Word.count :=
    forall_nodes hzero hwords
  unfold valueAt
  split
  next hnode => exact hnodes node hnode
  next => exact hzero

/-- Arcs that relate words, and are exact, have weights that stay exact along a path. -/
theorem grounded_arcs (hclosed : sys.Closed)
    (hexact : ∀ arc ∈ sys.arcs, arc.weight.natAbs ≤ 2 ^ 53)
    (hbounded : ∀ index < sys.unknowns.size,
      ∃ arc ∈ sys.arcs, arc.source = 0 ∧ arc.target = index + 1 ∧ 0 ≤ arc.weight)
    {values : Nat → Int} (hvalues : sys.Satisfies values)
    (hwords : ∀ index < sys.unknowns.size, 0 ≤ values index ∧ values index < Word.count) :
    Arc.Grounded (sys.unknowns.size + 1) 0 (Word.count - 1) (2 ^ 53) sys.arcs where
  within := within_arcs hclosed
  reached := by
    intro node hpos hlt
    obtain ⟨index, rfl⟩ := Nat.exists_eq_succ_of_ne_zero hpos.ne'
    exact hbounded index (by omega)
  low_nonpos := le_rfl
  high_nonneg := by decide
  low_ge := by decide
  high_le := by decide
  weights := by
    intro arc hmem
    have := hexact arc hmem
    have := isPotential_valueAt hclosed hvalues arc hmem
    have := valueAt_isWord hwords arc.source
    have := valueAt_isWord hwords arc.target
    unfold Word.count at *
    omega

/-- Slots are found if every variable has a lower bound that is not negative, and
some words are a solution. -/
theorem exists_earliest (hclosed : sys.Closed)
    (hexact : ∀ arc ∈ sys.arcs, arc.weight.natAbs ≤ 2 ^ 53)
    (hbounded : ∀ index < sys.unknowns.size,
      ∃ arc ∈ sys.arcs, arc.source = 0 ∧ arc.target = index + 1 ∧ 0 ≤ arc.weight)
    {values : Nat → Int} (hvalues : sys.Satisfies values)
    (hwords : ∀ index < sys.unknowns.size, 0 ≤ values index ∧ values index < Word.count) :
    ∃ slots, sys.earliest = .ok slots := by
  have hgrounded := grounded_arcs hclosed hexact hbounded hvalues hwords
  obtain ⟨lengths, hpaths, hreached⟩ := exists_longestPaths? Significand.keepsUpTo_keep
    (by omega) hgrounded (isPotential_valueAt hclosed hvalues) rfl
    fun node => by have := valueAt_isWord hwords node; omega
  have hlengths : sys.pathLengths sys.keptArcs = .ok lengths := by
    rw [keptArcs_eq hclosed, rounded_eq_self hexact]
    rcases pathLengths_of_within (within_arcs hclosed) hvalues.1 with
      ⟨lengths', hpaths', hlengths⟩ | ⟨hnone, _⟩
    · rw [hpaths] at hpaths'
      rw [hlengths, Option.some.inj hpaths']
    · rw [hpaths] at hnone
      cases hnone
  rw [earliest, hlengths, Checked.ok_bind]
  refine exists_readSlots fun index hindex => ?_
  obtain ⟨x, hx, hlow, hhigh⟩ := hreached (index + 1) (by omega)
  refine ⟨x.toNat, by unfold Word.count at *; omega, ?_⟩
  have hclamp : clampLength x = x := by
    unfold clampLength Offset.bound
    unfold Word.count at hhigh
    omega
  rw [hx, Option.map_some, hclamp, Int.toNat_of_nonneg hlow]
  rfl

end ConstraintSystem

end SlotScheduling
