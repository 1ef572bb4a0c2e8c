import Mathlib.Order.Lattice.Nat
import SlotScheduling.Proofs.Graph.Edges
import SlotScheduling.Proofs.Steps

/-!
# Bundling only tightens

Edges are offered to a bundle one after the other, and each of them is accepted or refused.  A
refused edge leaves the bundle as it is, and an accepted one takes over only if its latency is
larger and its distance is not.  So the latency never falls and the distance never grows, and no
accepted edge that is as shallow as the bundle asks for more than the bundle does.
-/

namespace SlotScheduling.EdgeBundle

variable {bundle bundle' : EdgeBundle} {new : DepEdge}

/-- The bundle takes the edge in, whether or not the edge takes over. -/
def Accepts (bundle : EdgeBundle) (new : DepEdge) : Prop := ∃ next, bundle.add new = .ok next

/-- The bundle that is left once the edge has been offered to it. -/
def offer (bundle : EdgeBundle) (new : DepEdge) : EdgeBundle :=
  Step.stateOf (Step.updateChecked (·.add new) ⟨bundle, {}⟩)

def offerAll (bundle : EdgeBundle) (edges : List DepEdge) : EdgeBundle := edges.foldl offer bundle

theorem add_eq_ok {next : EdgeBundle} :
    bundle.add new = .ok next ↔ bundle.addEdge new = .ok next := by
  unfold add broken
  cases bundle.addEdge new <;> simp

theorem offer_of_add (h : bundle.add new = .ok bundle') : bundle.offer new = bundle' := by
  rw [offer, Step.updateChecked, h]
  rfl

theorem offer_of_not_accepts (h : ¬bundle.Accepts new) : bundle.offer new = bundle := by
  rw [offer, Step.updateChecked]
  cases hadd : bundle.add new with
  | ok next => exact absurd ⟨next, hadd⟩ h
  | error failure => rfl

/-! ## One edge -/

/-- An edge of fixed timing stands alone: only the same edge once more is accepted. -/
theorem eq_of_isFixedTiming (hfixed : bundle.edge.isFixedTiming = true)
    (h : bundle.add new = .ok bundle') : bundle' = bundle := by
  rw [add_eq_ok, addEdge] at h
  split at h
  · cases h
    rfl
  · simp [conflict?, hfixed] at h

/-- The second bundle asks for at least what the first one does, at no larger distance. -/
structure Tightens (bundle bundle' : EdgeBundle) : Prop where
  latency : bundle.edge.latency ≤ bundle'.edge.latency
  distance : bundle'.edge.distance ≤ bundle.edge.distance
  fixed : bundle.edge.isFixedTiming = true → bundle' = bundle

theorem Tightens.refl (bundle : EdgeBundle) : bundle.Tightens bundle :=
  ⟨le_rfl, le_rfl, fun _ => rfl⟩

theorem Tightens.trans {last : EdgeBundle} (h : bundle.Tightens bundle')
    (h' : bundle'.Tightens last) : bundle.Tightens last := by
  refine ⟨h.latency.trans h'.latency, h'.distance.trans h.distance, fun hfixed => ?_⟩
  have hsame := h.fixed hfixed
  rw [h'.fixed (hsame ▸ hfixed), hsame]

theorem tightens_of_add (h : bundle.add new = .ok bundle') : bundle.Tightens bundle' := by
  have hfixed : bundle.edge.isFixedTiming = true → bundle' = bundle :=
    fun hfixed => eq_of_isFixedTiming hfixed h
  rcases addEdge_cases (add_eq_ok.mp h) with ⟨heq, _⟩ | ⟨heq, hdistance, hlonger⟩
  · exact ⟨by rw [heq], by rw [heq], hfixed⟩
  · exact ⟨by rw [heq]; exact hlonger.le, by rw [heq]; exact hdistance, hfixed⟩

/-- What a bundle has just accepted asks for no more than the bundle, unless it is deeper. -/
theorem latency_le_of_add (h : bundle.add new = .ok bundle')
    (hdistance : new.distance ≤ bundle'.edge.distance) : new.latency ≤ bundle'.edge.latency := by
  rcases addEdge_cases (add_eq_ok.mp h) with ⟨heq, hsame | hnot⟩ | ⟨heq, _⟩
  · rw [heq, hsame]
  · rw [heq] at hdistance ⊢
    exact Nat.le_of_not_lt fun hlonger => hnot ⟨hdistance, hlonger⟩
  · rw [heq]

theorem tightens_offer (bundle : EdgeBundle) (new : DepEdge) :
    bundle.Tightens (bundle.offer new) := by
  by_cases haccepts : bundle.Accepts new
  · obtain ⟨next, hadd⟩ := haccepts
    rw [offer_of_add hadd]
    exact tightens_of_add hadd
  · rw [offer_of_not_accepts haccepts]
    exact .refl bundle

/-! ## Any number of edges -/

theorem offerAll_append (bundle : EdgeBundle) (edges more : List DepEdge) :
    bundle.offerAll (edges ++ more) = (bundle.offerAll edges).offerAll more :=
  List.foldl_append

theorem tightens_offerAll (bundle : EdgeBundle) (edges : List DepEdge) :
    bundle.Tightens (bundle.offerAll edges) := by
  induction edges generalizing bundle with
  | nil => exact .refl bundle
  | cons new rest ih => exact (tightens_offer bundle new).trans (ih (bundle.offer new))

/-- A bundle starts with one edge and is offered others.  Refused edges leave it as it is; its
latency never falls and its distance never grows; with an edge of fixed timing it never changes;
and in the end no accepted edge, the first one included, has a larger latency without a larger
distance. -/
theorem offerAll_tightens (first : DepEdge) (crossBlock : Bool) (edges : List DepEdge) :
    let bundle : List DepEdge → EdgeBundle := (EdgeBundle.mk first crossBlock).offerAll
    (∀ earlier new later, edges = earlier ++ new :: later → ¬(bundle earlier).Accepts new →
      bundle (earlier ++ [new]) = bundle earlier) ∧
    (∀ earlier later, edges = earlier ++ later →
      (bundle earlier).edge.latency ≤ (bundle edges).edge.latency ∧
      (bundle edges).edge.distance ≤ (bundle earlier).edge.distance ∧
      ((bundle earlier).edge.isFixedTiming = true → bundle edges = bundle earlier)) ∧
    (first.distance ≤ (bundle edges).edge.distance →
      first.latency ≤ (bundle edges).edge.latency) ∧
    ∀ earlier new later, edges = earlier ++ new :: later → (bundle earlier).Accepts new →
      new.distance ≤ (bundle edges).edge.distance →
        new.latency ≤ (bundle edges).edge.latency := by
  intro bundle
  have hlater : ∀ earlier later, edges = earlier ++ later →
      (bundle earlier).Tightens (bundle edges) := by
    rintro earlier later rfl
    rw [show bundle (earlier ++ later) = _ from offerAll_append _ _ _]
    exact tightens_offerAll _ _
  have hsnoc : ∀ earlier new, bundle (earlier ++ [new]) = (bundle earlier).offer new :=
    fun earlier new => offerAll_append _ _ _
  refine ⟨fun earlier new later _ hrefused => ?_, fun earlier later heq => ?_, fun _ => ?_,
    fun earlier new later heq haccepts hdistance => ?_⟩
  · rw [hsnoc, offer_of_not_accepts hrefused]
  · have := hlater earlier later heq
    exact ⟨this.latency, this.distance, this.fixed⟩
  · exact (hlater [] edges rfl).latency
  · -- The edge is met by the bundle that took it in, and so by all that come later.
    obtain ⟨next, hadd⟩ := haccepts
    have hafter : next.Tightens (bundle edges) := by
      rw [← offer_of_add hadd, ← hsnoc]
      exact hlater (earlier ++ [new]) later (by rw [heq, List.append_assoc]; rfl)
    exact (latency_le_of_add hadd (hdistance.trans hafter.distance)).trans hafter.latency

/-- A deep edge gives way to a shallow one of larger latency; a conflict and an edge of fixed timing
are refused on the way. -/
theorem offerAll_tightens_mixed :
    let edges : List DepEdge := [.loopCarried 9 2, .memory 4 0, .value 3, .fixedTiming 9]
    let bundle : List DepEdge → EdgeBundle := (EdgeBundle.mk (.loopCarried 2 1) false).offerAll
    bundle edges = ⟨.memory 4 0, false⟩ ∧
      bundle [.loopCarried 9 2] = ⟨.loopCarried 2 1, false⟩ ∧
      (bundle [.loopCarried 9 2, .memory 4 0]).Accepts (.value 3) ∧
      (DepEdge.value 3).latency ≤ (bundle edges).edge.latency := by
  intro edges bundle
  obtain ⟨hrefused, _, _, haccepted⟩ := offerAll_tightens (.loopCarried 2 1) false edges
  have haccepts : (bundle [.loopCarried 9 2, .memory 4 0]).Accepts (.value 3) :=
    ⟨⟨.memory 4 0, false⟩, rfl⟩
  refine ⟨rfl, hrefused [] (.loopCarried 9 2) _ rfl ?_, haccepts,
    haccepted [.loopCarried 9 2, .memory 4 0] (.value 3) _ rfl haccepts (Nat.le_refl 0)⟩
  rintro ⟨_, ⟨⟩⟩

end SlotScheduling.EdgeBundle
