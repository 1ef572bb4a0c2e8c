import SlotScheduling.Graph.Freezing
import SlotScheduling.Proofs.Graph.Growth

/-!
# Frozen units

A frozen block loses its dependencies, and every unit but the terminator is tied to
the terminator at the distance that their slots have.  Edges of fixed timing are never
merged with others, so that no tie is lost.
-/

namespace SlotScheduling

/-! ## Edges of fixed timing -/

namespace EdgeBundle

theorem addEdge_of_isFixedTiming {old bundle : EdgeBundle} {new : DepEdge}
    (hfixed : old.edge.isFixedTiming = true) (h : old.addEdge new = .ok bundle) : bundle = old := by
  unfold addEdge at h
  split at h
  · cases h
    rfl
  · rw [conflict?, hfixed, Bool.true_or, if_pos rfl] at h
    cases h

theorem edge_of_addEdge_fixedTiming {old bundle : EdgeBundle} {distance : Nat}
    (h : old.addEdge (.fixedTiming distance) = .ok bundle) :
    bundle.edge = .fixedTiming distance := by
  have hfixed : (DepEdge.fixedTiming distance).isFixedTiming = true := rfl
  unfold addEdge at h
  split at h
  next heq =>
    cases h
    exact heq
  · rw [conflict?, hfixed, Bool.or_true, if_pos rfl] at h
    cases h

end EdgeBundle

/-- The first unit issues that many slots after the second one, by an edge of fixed
timing from whichever of them issues first. -/
def Tied (bundle? : UnitId → UnitId → Option EdgeBundle) (id other : UnitId)
    (apart : Int) : Prop :=
  ∃ (bundle : EdgeBundle) (distance : Nat), bundle.edge = .fixedTiming distance ∧
    ((bundle? id other = some bundle ∧ apart = distance ∧ 0 < distance) ∨
      (bundle? other id = some bundle ∧ apart = -(distance : Int)))

/-- No edge of fixed timing is lost or changed. -/
def KeepsTies (bundle? bundle?' : UnitId → UnitId → Option EdgeBundle) : Prop :=
  ∀ {target source : UnitId} {bundle : EdgeBundle}, bundle? target source = some bundle →
    bundle.edge.isFixedTiming = true → bundle?' target source = some bundle

theorem Tied.mono {bundle? bundle?' : UnitId → UnitId → Option EdgeBundle} {id other : UnitId}
    {apart : Int} (h : Tied bundle? id other apart) (hkeeps : KeepsTies bundle? bundle?') :
    Tied bundle?' id other apart := by
  obtain ⟨bundle, distance, hedge, hcases⟩ := h
  have hfixed : bundle.edge.isFixedTiming = true := by
    rw [hedge]
    rfl
  exact ⟨bundle, distance, hedge, hcases.imp (And.imp_left (hkeeps · hfixed))
    (And.imp_left (hkeeps · hfixed))⟩

/-- A new edge does not change edges of fixed timing. -/
theorem keepsTies_of_joins {bundle? bundle?' : UnitId → UnitId → Option EdgeBundle}
    {target source : UnitId} {edge : DepEdge} {bundle : EdgeBundle}
    (hjoins : Graph.Joins (bundle? target source) edge bundle)
    (hedges : ∀ user other, bundle?' user other =
      if user = target ∧ other = source then some bundle else bundle? user other) :
    KeepsTies bundle? bundle?' := by
  intro user other old hold hfixed
  rw [hedges]
  split
  next hpair =>
    obtain ⟨rfl, rfl⟩ := hpair
    rcases hjoins with ⟨hnone, _⟩ | ⟨old', hold', hadd⟩
    · rw [hold] at hnone
      cases hnone
    · obtain rfl := Option.some.inj (hold.symm.trans hold')
      rw [EdgeBundle.addEdge_of_isFixedTiming hfixed hadd]
  next => exact hold

/-! ## Attaching frozen units -/

namespace Graph.Completed

/-- The edges between units that are not part of a graph yet. -/
def edgesOf (units : Array ScheduleUnit) (target source : UnitId) : Option EdgeBundle :=
  units[target]?.bind (·.dep? source)

/-- Nothing but the dependencies among some units changed, and none uses another one. -/
structure Attached (start units : Array ScheduleUnit) : Prop where
  bare : units.map ScheduleUnit.bare = start.map ScheduleUnit.bare
  uses : ∀ {id : UnitId} {unit : ScheduleUnit}, units[id]? = some unit → unit.uses = {}
  within : ∀ {target source bundle}, edgesOf units target source = some bundle →
    source < units.size

variable {start units units' : Array ScheduleUnit} {target source : UnitId} {distance : Nat}

theorem attach_cases (h : attach units target source distance = .ok units') :
    ∃ consumer consumer', units[target]? = some consumer ∧ source < units.size ∧
      consumer'.bare = consumer.bare ∧ consumer'.uses = consumer.uses ∧
      units' = units.setIfInBounds target consumer' ∧
      ∃ bundle, Joins (edgesOf units target source) (.fixedTiming distance) bundle ∧
        ∀ user other, edgesOf units' user other =
          if user = target ∧ other = source then some bundle else edgesOf units user other := by
  unfold attach at h
  split at h
  next consumer producer hconsumer hproducer =>
    obtain ⟨⟨consumer', isFirst⟩, hadd, h⟩ := Checked.bind_eq_ok.mp h
    obtain rfl := Checked.pure_eq_ok.mp h
    obtain ⟨hbare, huses, bundle, hjoins, hdeps⟩ := joins_of_addDep hadd
    have hlt := (Array.getElem?_eq_some_iff.mp hconsumer).1
    refine ⟨consumer, consumer', hconsumer, (Array.getElem?_eq_some_iff.mp hproducer).1, hbare,
      huses, rfl, bundle, by rwa [edgesOf, hconsumer], fun user other => ?_⟩
    rw [edgesOf, Array.getElem?_setIfInBounds]
    by_cases huser : target = user
    · subst huser
      rw [if_pos rfl, if_pos hlt, Option.bind_some, hdeps, edgesOf, hconsumer, Option.bind_some]
      simp
    · rw [if_neg huser, if_neg fun hpair => huser hpair.1.symm, edgesOf]
  · cases h
  · cases h

theorem Attached.attach (hunits : Attached start units)
    (h : attach units target source distance = .ok units') :
    Attached start units' ∧ KeepsTies (edgesOf units) (edgesOf units') ∧
      ∃ bundle, edgesOf units' target source = some bundle ∧
        bundle.edge = .fixedTiming distance := by
  obtain ⟨consumer, consumer', hconsumer, hsource, hbare, huses, hset, bundle, hjoins, hedges⟩ :=
    attach_cases h
  have hsize : units'.size = units.size := by simp [hset]
  refine ⟨⟨?_, ?_, ?_⟩, keepsTies_of_joins hjoins hedges, bundle,
    by rw [hedges, if_pos ⟨rfl, rfl⟩], ?_⟩
  · rw [← hunits.bare, hset]
    refine Array.ext_getElem? fun id => ?_
    simp only [Array.getElem?_map, Array.getElem?_setIfInBounds]
    by_cases hid : target = id
    · subst hid
      obtain ⟨hlt, hget⟩ := Array.getElem?_eq_some_iff.mp hconsumer
      simp [hlt, hget, hbare]
    · simp [hid]
  · intro id unit hunit
    rw [hset, Array.getElem?_setIfInBounds] at hunit
    by_cases hid : target = id
    · subst hid
      rw [if_pos rfl, if_pos (Array.getElem?_eq_some_iff.mp hconsumer).1] at hunit
      cases hunit
      exact huses.trans (hunits.uses hconsumer)
    · rw [if_neg hid] at hunit
      exact hunits.uses hunit
  · intro user other bundle' hbundle
    rw [hsize]
    rw [hedges] at hbundle
    split at hbundle
    next hpair => exact hpair.2 ▸ hsource
    next => exact hunits.within hbundle
  · rcases hjoins with ⟨_, heq⟩ | ⟨_, _, hadd⟩
    · exact heq
    · exact EdgeBundle.edge_of_addEdge_fixedTiming hadd

end Graph.Completed

/-! ## Complete graphs -/

namespace Graph

/-- A graph that ends with its terminator and its exit, and that has a schedule. -/
structure Complete (sub : Graph) (done : Completed) : Prop where
  graph : done.graph = sub
  exit : sub.exitRoot = some done.exit
  terminator : sub.terminator? sub.entryBlock = some done.terminator
  size : sub.units.size = done.exit + 1
  last : done.exit = done.terminator + 1
  placed : ∀ {id}, id < done.exit → ∃ slot, sub.slot? id = some slot

theorem completed_eq_ok {sub : Graph} {done : Completed} (hsub : sub.Listed)
    (h : sub.completed = .ok done) : Complete sub done := by
  unfold completed at h
  dsimp only at h
  split at h
  · cases h
  · cases h
  next exit terminator hexit hterminator =>
    split at h
    · cases h
    next hends =>
      rw [not_or, not_not, not_not] at hends
      obtain ⟨hsize, hlast⟩ := hends
      split at h
      · cases h
      next hnone =>
        cases h
        refine ⟨rfl, hexit, hterminator, hsize.symm, hlast.symm, fun {id} hid => ?_⟩
        have hlt : id < sub.units.size := by
          rw [← hsize]
          exact Nat.lt_succ_of_lt hid
        have hunit := Array.getElem?_eq_getElem hlt
        have hplaced := List.find?_eq_none.mp hnone sub.units[id]
          (Array.mem_toList_iff.mpr (Array.getElem_mem hlt))
        have hne : sub.units[id].id ≠ exit := by
          rw [hsub.positions hunit]
          exact Nat.ne_of_lt hid
        rw [slot?_eq hunit]
        refine Option.ne_none_iff_exists'.mp fun hslot => hplaced ?_
        simp [hne, hslot]

end Graph

namespace Graph.Completed

variable {sub : Graph} {done : Completed}

theorem getElem?_migrants (h : Complete sub done) {id : UnitId} (hid : id < done.exit) :
    done.migrants[id]? = sub.units[id]?.map ScheduleUnit.frozen := by
  have hsize : id < sub.units.toList.length - 1 := by
    rw [Array.length_toList, h.size]
    exact hid
  rw [migrants, h.graph, List.getElem?_map, List.getElem?_dropLast, if_pos hsize,
    Array.getElem?_toList]

theorem length_migrants (h : Complete sub done) : done.migrants.length = done.exit := by
  rw [migrants, h.graph, List.length_map, List.length_dropLast, Array.length_toList, h.size,
    Nat.add_sub_cancel]

theorem getElem?_migrantSlots (h : Complete sub done) {id : UnitId} (hid : id < done.exit)
    {slot : Nat} (hslot : sub.slot? id = some slot) : done.migrantSlots[id]? = some slot := by
  have hsize : id < sub.units.toList.length - 1 := by
    rw [Array.length_toList, h.size]
    exact hid
  obtain ⟨unit, hunit, hslot⟩ := Option.bind_eq_some_iff.mp hslot
  rw [migrantSlots, h.graph, List.getElem?_map, List.getElem?_dropLast, if_pos hsize,
    Array.getElem?_toList, hunit, Option.map_some, hslot, Option.getD_some]

/-- The units of a frozen block are tied to its terminator. -/
theorem frozenUnits_eq_ok (hsub : Complete sub done) {units : List ScheduleUnit}
    (h : done.frozenUnits = .ok units) :
    Attached done.migrants.toArray units.toArray ∧
      ∀ {id : UnitId} {s t : Nat}, id < done.exit → id ≠ done.terminator →
        sub.slot? id = some s → sub.slot? done.terminator = some t →
        Tied (edgesOf units.toArray) id done.terminator ((s : Int) - t) := by
  obtain ⟨frozen, hfold, h⟩ := Checked.bind_eq_ok.mp h
  obtain rfl := Checked.pure_eq_ok.mp h
  have hstart : Attached done.migrants.toArray done.migrants.toArray := by
    have hfrozen : ∀ {id : UnitId} {unit : ScheduleUnit},
        done.migrants.toArray[id]? = some unit → ∃ unit' : ScheduleUnit, unit'.frozen = unit := by
      intro id unit hunit
      rw [List.getElem?_toArray] at hunit
      obtain ⟨unit', _, hunit'⟩ := List.mem_map.mp (List.mem_of_getElem? hunit)
      exact ⟨unit', hunit'⟩
    refine ⟨rfl, fun {id unit} hunit => ?_, fun {target source bundle} hbundle => ?_⟩
    · obtain ⟨unit', rfl⟩ := hfrozen hunit
      rfl
    · obtain ⟨unit, hunit, hdep⟩ := Option.bind_eq_some_iff.mp hbundle
      obtain ⟨unit', rfl⟩ := hfrozen hunit
      cases hdep
  obtain ⟨hattached, htied⟩ := Checked.foldlM_forall
    (P := Attached done.migrants.toArray)
    (Q := fun edge units => ∃ bundle, edgesOf units edge.1 edge.2.1 = some bundle ∧
      bundle.edge = .fixedTiming edge.2.2)
    (fun edge _ before after hbefore hround => by
      obtain ⟨hafter, hkeeps, hnew⟩ := hbefore.attach hround
      refine ⟨hafter, hnew, fun other hother => ?_⟩
      obtain ⟨bundle, hbundle, hedge⟩ := hother
      exact ⟨bundle, hkeeps hbundle (by rw [hedge]; rfl), hedge⟩) hstart hfold
  refine ⟨by simpa using hattached, fun {id s t} hid hne hs ht => ?_⟩
  have hterminator : done.migrantSlots.getD done.terminator 0 = t := by
    have hlt : done.terminator < done.exit := by
      rw [hsub.last]
      exact Nat.lt_succ_self _
    rw [List.getD_eq_getElem?_getD, getElem?_migrantSlots hsub hlt ht, Option.getD_some]
  have hmem : freezingEdge done.terminator t id s ∈ done.freezingEdges := by
    refine List.mem_map.mpr ⟨(s, id), List.mem_filter.mpr ⟨?_, by simpa using hne⟩, ?_⟩
    · exact List.mem_zipIdx_iff_getElem?.mpr (getElem?_migrantSlots hsub hid hs)
    · rw [hterminator]
  obtain ⟨bundle, hbundle, hedge⟩ := htied _ hmem
  simp only [Array.toArray_toList]
  unfold freezingEdge at hbundle hedge
  by_cases hle : s ≤ t
  · rw [if_pos hle] at hbundle hedge
    exact ⟨bundle, t - s, hedge, Or.inr ⟨hbundle, by omega⟩⟩
  · rw [if_neg hle] at hbundle hedge
    exact ⟨bundle, s - t, hedge, Or.inl ⟨hbundle, by omega, by omega⟩⟩

end Graph.Completed

end SlotScheduling
