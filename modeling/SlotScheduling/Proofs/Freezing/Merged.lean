import SlotScheduling.Graph.Lowering
import SlotScheduling.Proofs.Freezing.Absorbed
import SlotScheduling.Proofs.Graph.Entered
import SlotScheduling.Proofs.Steps

/-!
# Merged graphs

A graph of a single block joins a graph of several blocks with its schedule frozen.
The operations of the block are made for the units that come along, and every frozen
unit is tied to the terminator of its block.
-/

namespace SlotScheduling

namespace Graph

variable {sub g g' : Graph} {done : Completed} {anchor : Option UnitId} {id : UnitId}

theorem Absorbs.addDep (h : Absorbs sub done anchor g g') {g'' : Graph} {target source : UnitId}
    {edge : DepEdge} (htarget : g.units.size ≤ target)
    (hadd : g'.addDep target source edge = .ok g'') : Absorbs sub done anchor g g'' := by
  have hbare := bare_addDep hadd
  obtain ⟨bundle, hjoins, hedges⟩ := bundle?_addDep h.toListed hadd
  refine ⟨h.toWellFormed.addDep hadd, h.agrees.trans (agreesBelow_addDep h.toListed hadd htarget),
    ?_, fun hmoves hid hunit => ?_, fun hmoves hid hne hs ht => ?_, ?_, ?_, ?_, ?_⟩
  · rw [size_eq_of_bare_eq hbare, h.size]
  · exact (getElem?_of_bare_eq hbare _).trans (h.moved hmoves hid hunit)
  · exact (h.tied hmoves hid hne hs ht).mono (keepsTies_of_joins hjoins hedges)
  all_goals
    obtain ⟨units, rfl⟩ := exists_eq_of_addDep h.toListed hadd
  · exact h.rest
  · exact h.holders
  · exact h.intervals
  · exact h.terminators

theorem freezeInto_eq_ok {now last : Journaled Graph} {entry : UnitId}
    (h : freezeInto sub anchor now = .ok entry last) :
    ∃ done, sub.completed = .ok done ∧ now.state.absorb done anchor = .ok last.state ∧
      entry = relocate now.state.units.size anchor 0 := by
  obtain ⟨done, hdone, h⟩ := Step.lift_bind_eq_ok.mp h
  rw [Step.current_bind] at h
  obtain ⟨absorbed, habsorb, h⟩ := Step.updateChecked_bind_eq_ok.mp h
  simp only [Step.current_bind] at h
  rcases Step.ite_eq_ok.mp h with ⟨_, h⟩ | ⟨_, h⟩
  · exact absurd h Step.fail_bind_ne_ok
  · obtain ⟨rfl, rfl⟩ := Step.pure_eq_ok.mp (Step.note_bind _ _ _ ▸ h)
    exact ⟨done, hdone, habsorb, rfl⟩

theorem mergeOnto_eq_ok {now last : Journaled Graph} {anchor entry : UnitId}
    (h : mergeOnto sub anchor now = .ok entry last) :
    freezeInto sub (some anchor) now = .ok entry last := by
  rw [mergeOnto, Step.current_bind] at h
  rcases Step.ite_eq_ok.mp h with ⟨_, h⟩ | ⟨_, h⟩
  · obtain ⟨unit, _, h⟩ := Step.lift_bind_eq_ok.mp h
    rcases Step.ite_eq_ok.mp h with ⟨_, h⟩ | ⟨_, h⟩
    · exact absurd h Step.fail_ne_ok
    · exact h
  · exact absurd h Step.fail_ne_ok

end Graph

namespace Lowering

open SlotScheduling.Graph

variable {σ : Type} {sub : Graph} {l l' : Lowering} {now last : Journaled σ}

/-- A block joins with its schedule frozen.  It is entered where its entry comes to stand, which
is the entry of the graph or waits for the terminator of the block before. -/
structure Merges (sub : Graph) (done : Completed) (anchor : Option UnitId) (l l' : Lowering) :
    Prop where
  complete : Complete sub done
  absorbs : Absorbs sub done anchor l.graph l'.graph
  folded : l.takesEntry sub.entryBlock = true → anchor = some l.graph.entryRoot
  unfolded : l.takesEntry sub.entryBlock = false → anchor = none
  chained : l.takesEntry sub.entryBlock = false → ∀ last ∈ l.lastTerminator,
    last < l.graph.units.size → l'.graph.Honours (relocate l.graph.units.size none 0) last 0
  last : l'.lastTerminator = l'.graph.terminator? sub.entryBlock
  taken : l'.entryTaken = true
  lastBlock : l'.lastBlock = sub.entryBlock

/-- The steps of joining a block that was scheduled before. -/
theorem mergeBlock_cases (h : mergeBlock l sub now = .ok l' last) :
    ∃ done anchor merged, sub.completed = .ok done ∧ l.graph.absorb done anchor = .ok merged ∧
      (l.takesEntry sub.entryBlock = true ∧ anchor = some l.graph.entryRoot ∧ l'.graph = merged ∨
        l.takesEntry sub.entryBlock = false ∧ anchor = none ∧
          l.chain merged (relocate l.graph.units.size none 0) = .ok l'.graph) ∧
      l'.lastTerminator = l'.graph.terminator? sub.entryBlock ∧ l'.entryTaken = true ∧
        l'.lastBlock = sub.entryBlock := by
  unfold mergeBlock at h
  by_cases htakes : l.takesEntry sub.entryBlock = true
  · rw [if_pos htakes] at h
    obtain ⟨g, now₁, hmerge, h⟩ := Step.bind_eq_ok.mp h
    obtain ⟨rfl, _⟩ := Step.pure_eq_ok.mp h
    obtain ⟨⟨entry, merged⟩, hmerge, rfl⟩ := Step.map_eq_ok.mp hmerge
    obtain ⟨inner, hinner, rfl, _⟩ := Step.apart_eq_ok.mp hmerge
    obtain ⟨done, hdone, habsorb, _⟩ := freezeInto_eq_ok (mergeOnto_eq_ok hinner)
    exact ⟨done, _, _, hdone, habsorb, Or.inl ⟨htakes, rfl, rfl⟩, rfl, rfl, rfl⟩
  · rw [if_neg htakes] at h
    obtain ⟨⟨entry, merged⟩, now₁, hmerge, h⟩ := Step.bind_eq_ok.mp h
    obtain ⟨chained, hchain, h⟩ := Step.lift_bind_eq_ok.mp h
    obtain ⟨rfl, _⟩ := Step.pure_eq_ok.mp h
    obtain ⟨inner, hinner, rfl, _⟩ := Step.apart_eq_ok.mp hmerge
    obtain ⟨done, hdone, habsorb, rfl⟩ := freezeInto_eq_ok hinner
    exact ⟨done, _, _, hdone, habsorb, Or.inr ⟨Bool.eq_false_iff.mpr htakes, rfl, hchain⟩, rfl, rfl,
      rfl⟩

theorem mergeBlock_eq_ok (hg : l.graph.WellFormed) (hroot : l.graph.IsControl l.graph.entryRoot)
    (hsub : sub.Listed) (h : mergeBlock l sub now = .ok l' last) :
    ∃ done anchor, Merges sub done anchor l l' := by
  obtain ⟨done, anchor, merged, hcompleted, habsorb, hcases, hlast, htaken, hblock⟩ :=
    mergeBlock_cases h
  have hdone := completed_eq_ok hsub hcompleted
  have habsorbs := fun hanchor => absorb_eq_ok hg hsub hdone hanchor habsorb
  rcases hcases with ⟨htakes, rfl, hgraph⟩ | ⟨htakes, rfl, hchain⟩
  · obtain ⟨habsorbs, _⟩ := habsorbs fun unit hunit => by
      cases hunit
      exact hroot.lt_size
    refine ⟨done, some l.graph.entryRoot, hdone, hgraph ▸ habsorbs, fun _ => rfl, fun hnot => ?_,
      fun hnot => ?_, hlast, htaken, hblock⟩ <;> cases hnot.symm.trans htakes
  · obtain ⟨habsorbs, hapart⟩ := habsorbs fun unit hunit => by cases hunit
    have hfolded : l.takesEntry sub.entryBlock = true → none = some l.graph.entryRoot :=
      fun htrue => by cases htrue.symm.trans htakes
    unfold chain at hchain
    split at hchain
    next hnone =>
      cases hchain
      refine ⟨done, none, hdone, habsorbs, hfolded, fun _ => rfl, fun _ last hlast => ?_, hlast,
        htaken, hblock⟩
      rw [hnone] at hlast
      cases hlast
    next terminator hsome =>
      refine ⟨done, none, hdone, habsorbs.addDep (base_le_relocate (Or.inl rfl)) hchain, hfolded,
        fun _ => rfl, fun _ last hlast hlt => ?_, hlast, htaken, hblock⟩
      obtain rfl := Option.some.inj (hsome.symm.trans hlast)
      refine honours_addDep_zero habsorbs.toListed (fun {bundle} hbundle => ?_) hchain
      cases (hapart rfl hlt).symm.trans hbundle

end Lowering

end SlotScheduling
