import SlotScheduling.Proofs.Freezing.Merged
import SlotScheduling.Proofs.Graph.Coherent

/-!
# Coherent merges

A coherent graph that absorbs another one stays coherent.  No frozen unit depends
on itself, since its one edge leads to the terminator or comes from there.  A merge
that fails after the units came along leaves a coherent graph, too.
-/

namespace SlotScheduling.Graph

variable {g g' sub : Graph} {done : Completed} {anchor : Option UnitId}
  {units : List ScheduleUnit} {id : UnitId}

theorem freezingEdge_ne {terminator terminatorSlot position slot : Nat}
    (hne : position ≠ terminator) :
    (freezingEdge terminator terminatorSlot position slot).1 ≠
      (freezingEdge terminator terminatorSlot position slot).2.1 := by
  by_cases hle : slot ≤ terminatorSlot
  · simpa [freezingEdge, hle] using hne.symm
  · simpa [freezingEdge, hle] using hne

namespace Completed

theorem ne_of_mem_freezingEdges {edge : UnitId × UnitId × Nat} (h : edge ∈ done.freezingEdges) :
    edge.1 ≠ edge.2.1 := by
  obtain ⟨⟨slot, position⟩, hmem, rfl⟩ := List.mem_map.mp h
  exact freezingEdge_ne (by simpa using (List.mem_filter.mp hmem).2)

theorem frozenUnits_loopless (h : done.frozenUnits = .ok units) (id : UnitId) :
    edgesOf units.toArray id id = none := by
  obtain ⟨frozen, hfold, h⟩ := Checked.bind_eq_ok.mp h
  obtain rfl := Checked.pure_eq_ok.mp h
  rw [Array.toArray_toList]
  refine Checked.foldlM_induction (P := fun units => ∀ id, edgesOf units id id = none)
    (fun edge hedge before after hbefore hround id => ?_) (fun id => ?_) hfold id
  · obtain ⟨_, _, _, _, _, _, _, bundle, _, hedges⟩ := attach_cases hround
    rw [hedges, if_neg, hbefore]
    rintro ⟨rfl, heq⟩
    exact ne_of_mem_freezingEdges hedge heq
  · cases hunit : done.migrants.toArray[id]? with
    | none => simp [edgesOf, hunit]
    | some unit =>
        rw [List.getElem?_toArray] at hunit
        obtain ⟨old, _, rfl⟩ := List.mem_map.mp (List.mem_of_getElem? hunit)
        simp [edgesOf, hunit, ScheduleUnit.frozen, ScheduleUnit.dep?, Table.get?]

end Completed

theorem sorted_foldl_adopt (hg : g.Sorted)
    (hids : ∀ {index : Nat} {unit : ScheduleUnit}, units[index]? = some unit →
      unit.id = g.units.size + index) : (units.foldl adopt g).Sorted := by
  induction units generalizing g with
  | nil => exact hg
  | cons unit rest ih =>
      have hfirst : unit.id = g.units.size + 0 := hids rfl
      refine ih (hg.adopt hfirst) fun {index unit'} hunit => ?_
      have hid : unit'.id = g.units.size + (index + 1) := hids hunit
      rw [hid, adopt, Array.size_push, Nat.add_assoc, Nat.add_comm 1 index]

theorem Adopted.loopless (h : Adopted units anchor g g')
    (hanchor : ∀ unit ∈ anchor, unit < g.units.size)
    (hunits : ∀ id, Completed.edgesOf units.toArray id id = none)
    (hloopless : ∀ {id}, ¬g.DependsOn id id) : ¬g'.DependsOn id id := by
  by_cases hid : id < g.units.size
  · rw [DependsOn, h.old hid]
    exact hloopless
  · obtain ⟨old, hmoves, rfl⟩ := exists_relocate anchor (Nat.not_lt.mp hid)
    rw [dependsOn_iff_bundle?, h.bundle?_new hanchor hmoves, hunits]
    simp

theorem Coherent.absorb (hg : g.Coherent) (hsub : sub.Listed) (hdone : sub.completed = .ok done)
    (hanchor : ∀ unit ∈ anchor, unit < g.units.size) (h : g.absorb done anchor = .ok g') :
    g'.Coherent := by
  have hcomplete := completed_eq_ok hsub hdone
  obtain ⟨habsorbs, _⟩ := absorb_eq_ok hg.toWellFormed hsub hcomplete hanchor h
  obtain ⟨units, hunits, h⟩ := Checked.bind_eq_ok.mp h
  obtain ⟨registered, hregister, h⟩ := Checked.bind_eq_ok.mp h
  obtain rfl := Checked.pure_eq_ok.mp h
  have hfrozen := frozenUnits_of_eq_ok hcomplete hunits
  have hsorted : ((movedUnits g.units.size anchor units).foldl adopt g).Sorted :=
    sorted_foldl_adopt hg.toSorted fun hunit => hfrozen.positions hsub hunit
  have hadopted := adopted_foldl_adopt units anchor g
  have hregister : Graph.registerUses
      ((movedUnits g.units.size anchor units).foldl adopt g) g.units.size = .ok registered :=
    hregister
  obtain ⟨hsame, _⟩ := registerUses_eq_ok hregister
    (hadopted.linked hfrozen hg.toWellFormed).1 (hadopted.linked hfrozen hg.toWellFormed).2
  obtain ⟨hlisted, hcontrol, hdata⟩ := hsorted.of_bare_eq hsame.bare
  refine habsorbs.toWellFormed.coherent ⟨habsorbs.toListed, hcontrol, hdata⟩ fun {id} hdepends => ?_
  have hdepends : registered.DependsOn id id := hdepends
  rw [dependsOn_iff_bundle?, hsame.edges, ← dependsOn_iff_bundle?] at hdepends
  exact hadopted.loopless hanchor (Completed.frozenUnits_loopless hunits) hg.loopless hdepends

/-- Also where the last check of a merge fails, the units that came along fit in. -/
theorem maintains_freezeInto (hsub : sub.Listed) : (freezeInto sub anchor).Maintains
    fun g => g.Coherent ∧ ∀ unit ∈ anchor, unit < g.units.size := by
  unfold freezeInto
  apply Step.maintains_lift_bind
  intro done hdone
  apply Step.maintains_current_bind
  intro start _
  apply Step.Maintains.bind
  · refine Step.maintains_updateChecked fun g g' h ⟨hg, hanchor⟩ =>
      ⟨hg.absorb hsub hdone hanchor h, fun unit hunit => ?_⟩
    have hcomplete := completed_eq_ok hsub hdone
    have hsize := (absorb_eq_ok hg.toWellFormed hsub hcomplete hanchor h).1.size
    have hmoves : Moves anchor done.exit := Or.inr (hcomplete.last ▸ Nat.succ_ne_zero _)
    exact Nat.lt_of_lt_of_le (hanchor unit hunit) (hsize ▸ base_le_relocate hmoves)
  intro _
  apply Step.maintains_current_bind
  intro merged _
  apply Step.maintains_ite
  · exact Step.maintains_fail_bind _ _
  · exact (Step.maintains_note _ _).bind fun _ => Step.maintains_pure _

theorem maintains_merge (hsub : sub.Listed) : (merge sub).Maintains Coherent :=
  fun now hnow => (maintains_freezeInto hsub now ⟨hnow, fun _ hunit => by cases hunit⟩).1

theorem maintains_mergeOnto (hsub : sub.Listed) (entry : UnitId) :
    (mergeOnto sub entry).Maintains Coherent := by
  intro now hnow
  rw [mergeOnto, Step.current_bind]
  split
  · cases hunit : now.state.unit entry with
    | error failure => exact hnow
    | ok unit =>
        have hlt : entry < now.state.units.size := lt_size_of_getElem? (unit_eq_ok.mp hunit)
        have hfreeze : (Step.stateOf (freezeInto sub (some entry) now)).Coherent :=
          (maintains_freezeInto hsub now ⟨hnow, fun _ hunit => Option.some.inj hunit ▸ hlt⟩).1
        show (Step.stateOf ((if unit.deps.size ≠ 0 then _ else freezeInto sub (some entry) :
          Step Graph UnitId) now)).Coherent
        split
        · exact hnow
        · exact hfreeze
  · exact hnow

end SlotScheduling.Graph
