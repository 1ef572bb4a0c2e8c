import Mathlib.Data.List.Perm.Basic
import SlotScheduling.Proofs.Freezing.Frozen

/-!
# The edges of a frozen block

Every unit of a block that is frozen is joined to the terminator by one edge.  No two of
these edges join the same pair of units, so that a complete graph can always be frozen,
and each unit ends up with exactly the edges that lead into it.
-/

namespace SlotScheduling

theorem flatMap_range_ite {α : Type} {index count : Nat} (item : α) (h : index < count) :
    ((List.range count).flatMap fun other => if index = other then [item] else []) = [item] := by
  induction count with
  | zero => cases h
  | succ count ih =>
      rw [List.range_succ, List.flatMap_append, List.flatMap_singleton]
      rcases Nat.lt_succ_iff_lt_or_eq.mp h with hlt | rfl
      · rw [ih hlt, if_neg (Nat.ne_of_lt hlt), List.append_nil]
      · have hnone : ((List.range index).flatMap fun other =>
            if index = other then [item] else []) = [] :=
          List.flatMap_eq_nil_iff.mpr fun other hother =>
            if_neg (Nat.ne_of_gt (List.mem_range.mp hother))
        rw [hnone, if_pos rfl, List.nil_append]

/-- Sorted by a key, the items of a list are all there. -/
theorem perm_flatMap_filter {α : Type} {key : α → Nat} {count : Nat} {list : List α}
    (h : ∀ item ∈ list, key item < count) :
    ((List.range count).flatMap fun index => list.filter (key · = index)).Perm list := by
  induction list with
  | nil => simp
  | cons item rest ih =>
      obtain ⟨hlt, hrest⟩ := List.forall_mem_cons.mp h
      have hsplit : ((List.range count).flatMap fun index =>
          (item :: rest).filter (key · = index)) =
            (List.range count).flatMap fun index =>
              (if key item = index then [item] else []) ++ rest.filter (key · = index) := by
        refine List.flatMap_congr fun index _ => ?_
        by_cases hindex : key item = index <;> simp [hindex]
      rw [hsplit]
      refine (List.flatMap_append_perm _ _ _).symm.trans ?_
      rw [flatMap_range_ite item hlt]
      exact (ih hrest).cons item

namespace ScheduleUnit

/-- What the unit depends on, and how. -/
def edges (unit : ScheduleUnit) : List (UnitId × DepEdge) :=
  unit.deps.entries.map fun dep => (dep.1, dep.2.edge)

theorem keys_eq (unit : ScheduleUnit) : unit.deps.keys = unit.edges.map Prod.fst := by
  rw [edges, List.map_map]
  rfl

end ScheduleUnit

namespace Graph.Completed

variable {sub : Graph} {done : Completed} {units : Array ScheduleUnit}
  {consumer : ScheduleUnit} {target source : UnitId} {edges : List (UnitId × UnitId × Nat)}

/-! ## The edges that freeze a block -/

/-- Of some edges of fixed timing, those into one unit. -/
def edgesInto (edges : List (UnitId × UnitId × Nat)) (id : UnitId) : List (UnitId × DepEdge) :=
  (edges.filter (·.1 = id)).map fun edge => (edge.2.1, .fixedTiming edge.2.2)

theorem exists_attach (hconsumer : units[target]? = some consumer) (hsource : source < units.size)
    (hne : source ≠ consumer.id) (hfresh : source ∉ consumer.deps.keys) (distance : Nat) :
    ∃ consumer', attach units target source distance =
        .ok (units.setIfInBounds target consumer') ∧
      consumer'.bare = consumer.bare ∧
      consumer'.edges = consumer.edges ++ [(source, .fixedTiming distance)] := by
  have hnone : consumer.dep? source = none :=
    Option.eq_none_iff_forall_ne_some.mpr fun bundle hbundle =>
      hfresh (Table.mem_keys_iff.mpr ⟨bundle, hbundle⟩)
  have herase : (consumer.deps.erase source).entries = consumer.deps.entries := by
    refine List.filter_eq_self.mpr fun entry hentry => decide_eq_true ?_
    rintro rfl
    exact hfresh (List.mem_map_of_mem hentry)
  simp only [attach, hconsumer, Array.getElem?_eq_getElem hsource, ScheduleUnit.addDep, if_neg hne,
    hnone]
  refine ⟨_, rfl, rfl, ?_⟩
  simp [ScheduleUnit.edges, Table.insert, herase]

/-- Nothing but the edges among some units changed, and these are the new ones. -/
structure Attaches (edges : List (UnitId × UnitId × Nat)) (units units' : Array ScheduleUnit) :
    Prop where
  size : units'.size = units.size
  added : ∀ {id : UnitId} {unit' : ScheduleUnit}, units'[id]? = some unit' →
    ∃ unit, units[id]? = some unit ∧ unit'.bare = unit.bare ∧
      unit'.edges = unit.edges ++ edgesInto edges id

theorem attaches_setIfInBounds {edge : UnitId × UnitId × Nat} {consumer' : ScheduleUnit}
    (hconsumer : units[edge.1]? = some consumer) (hbare : consumer'.bare = consumer.bare)
    (hedges : consumer'.edges = consumer.edges ++ [(edge.2.1, .fixedTiming edge.2.2)]) :
    Attaches [edge] units (units.setIfInBounds edge.1 consumer') := by
  refine ⟨Array.size_setIfInBounds, fun {id unit'} hunit' => ?_⟩
  rw [Array.getElem?_setIfInBounds] at hunit'
  by_cases hid : edge.1 = id
  · subst hid
    rw [if_pos rfl, if_pos (Array.getElem?_eq_some_iff.mp hconsumer).1] at hunit'
    cases hunit'
    exact ⟨consumer, hconsumer, hbare, by simpa [edgesInto] using hedges⟩
  · rw [if_neg hid] at hunit'
    exact ⟨unit', hunit', rfl, by simp [edgesInto, hid]⟩

/-- Edges between different pairs of units all come to stand, in their order. -/
theorem exists_foldlM_attach
    (hids : ∀ {id : UnitId} {unit : ScheduleUnit}, units[id]? = some unit → unit.id = id)
    (hedges : ∀ edge ∈ edges, edge.1 < units.size ∧ edge.2.1 < units.size ∧ edge.2.1 ≠ edge.1)
    (hapart : edges.Pairwise fun edge other => ¬(edge.1 = other.1 ∧ edge.2.1 = other.2.1))
    (hfresh : ∀ edge ∈ edges, ∀ unit, units[edge.1]? = some unit → edge.2.1 ∉ unit.deps.keys) :
    ∃ units', edges.foldlM (fun units edge => attach units edge.1 edge.2.1 edge.2.2) units =
        .ok units' ∧ Attaches edges units units' := by
  induction edges generalizing units with
  | nil => exact ⟨units, rfl, rfl, fun hunit => ⟨_, hunit, rfl, by simp [edgesInto]⟩⟩
  | cons edge rest ih =>
      obtain ⟨⟨htarget, hsource, hne⟩, hrest⟩ := List.forall_mem_cons.mp hedges
      obtain ⟨hother, hapart⟩ := List.pairwise_cons.mp hapart
      obtain ⟨hnew, hfresh⟩ := List.forall_mem_cons.mp hfresh
      have hconsumer := Array.getElem?_eq_getElem htarget
      obtain ⟨consumer', hattach, hbare, hconsumerEdges⟩ :=
        exists_attach hconsumer hsource (by rwa [hids hconsumer]) (hnew _ hconsumer) edge.2.2
      have hfirst := attaches_setIfInBounds hconsumer hbare hconsumerEdges
      have hids' : ∀ {id : UnitId} {unit' : ScheduleUnit},
          (units.setIfInBounds edge.1 consumer')[id]? = some unit' → unit'.id = id := by
        intro id unit' hunit'
        obtain ⟨unit, hunit, hbare, -⟩ := hfirst.added hunit'
        have hid : unit'.id = unit.id := by
          have hid := congrArg ScheduleUnit.id hbare
          exact hid
        exact hid.trans (hids hunit)
      have hfresh' : ∀ next ∈ rest, ∀ unit',
          (units.setIfInBounds edge.1 consumer')[next.1]? = some unit' →
            next.2.1 ∉ unit'.deps.keys := by
        intro next hnext unit' hunit'
        obtain ⟨unit, hunit, -, hlater⟩ := hfirst.added hunit'
        have hold := hfresh next hnext unit hunit
        rw [ScheduleUnit.keys_eq] at hold ⊢
        rw [hlater, List.map_append, List.mem_append]
        rintro (hmem | hmem)
        · exact hold hmem
        · by_cases htarget : edge.1 = next.1
          · refine hother next hnext ⟨htarget, ?_⟩
            simpa [edgesInto, htarget, eq_comm] using hmem
          · simp [edgesInto, htarget] at hmem
      obtain ⟨units', hfold, hafter⟩ := ih hids' (by simpa using hrest) hapart hfresh'
      refine ⟨units', ?_, hafter.size.trans hfirst.size, fun {id unit'} hunit' => ?_⟩
      · rw [List.foldlM_cons]
        exact Checked.bind_eq_ok.mpr ⟨_, hattach, hfold⟩
      · obtain ⟨middle, hmiddle, hbare, hlast⟩ := hafter.added hunit'
        obtain ⟨unit, hunit, hbare', hbefore⟩ := hfirst.added hmiddle
        refine ⟨unit, hunit, hbare.trans hbare', ?_⟩
        rw [hlast, hbefore, List.append_assoc, edgesInto, edgesInto, edgesInto, ← List.map_append,
          ← List.filter_append]
        rfl

/-- The edges that freeze a block join each unit but the last two to the terminator. -/
theorem freezingEdges_eq (h : Complete sub done) :
    done.freezingEdges = (List.range done.terminator).map fun id =>
      freezingEdge done.terminator (done.migrantSlots.getD done.terminator 0) id
        (done.migrantSlots.getD id 0) := by
  have hlength : done.migrantSlots.length = done.terminator + 1 := by
    rw [migrantSlots, h.graph, List.length_map, List.length_dropLast, Array.length_toList, h.size,
      h.last, Nat.add_sub_cancel]
  have hzip : done.migrantSlots.zipIdx =
      (List.range (done.terminator + 1)).map fun id => (done.migrantSlots.getD id 0, id) := by
    refine List.ext_getElem (by simp [hlength]) fun id hid _ => ?_
    rw [List.length_zipIdx] at hid
    simp [List.getD_eq_getElem?_getD, List.getElem?_eq_getElem hid]
  have hothers : (List.range (done.terminator + 1)).filter (· ≠ done.terminator) =
      List.range done.terminator := by
    rw [List.range_succ, List.filter_append, List.filter_eq_self.mpr]
    · simp
    · intro id hid
      simpa using Nat.ne_of_lt (List.mem_range.mp hid)
  rw [freezingEdges, hzip, List.filter_map, List.map_map, ← hothers]
  rfl

theorem length_freezingEdges (h : Complete sub done) :
    done.freezingEdges.length = done.terminator := by
  rw [freezingEdges_eq h, List.length_map, List.length_range]

/-- Each of the edges joins the terminator and another unit. -/
theorem of_mem_freezingEdges (h : Complete sub done) {edge : UnitId × UnitId × Nat}
    (hmem : edge ∈ done.freezingEdges) :
    (edge.1 = done.terminator ∧ edge.2.1 < done.terminator) ∨
      (edge.1 < done.terminator ∧ edge.2.1 = done.terminator) := by
  rw [freezingEdges_eq h] at hmem
  obtain ⟨id, hid, rfl⟩ := List.mem_map.mp hmem
  rw [List.mem_range] at hid
  unfold freezingEdge
  split
  · exact Or.inl ⟨rfl, hid⟩
  · exact Or.inr ⟨hid, rfl⟩

theorem pairwise_freezingEdges (h : Complete sub done) :
    done.freezingEdges.Pairwise fun edge other => ¬(edge.1 = other.1 ∧ edge.2.1 = other.2.1) := by
  rw [freezingEdges_eq h, List.pairwise_map]
  refine List.pairwise_lt_range.imp_of_mem fun {id other} hid hother hlt => ?_
  rw [List.mem_range] at hid hother
  unfold freezingEdge
  split <;> split <;> rintro ⟨htarget, hsource⟩
  · exact Nat.ne_of_lt hlt hsource
  · exact Nat.ne_of_gt hother htarget
  · exact Nat.ne_of_lt hid htarget
  · exact Nat.ne_of_lt hlt htarget

/-- A complete graph can be frozen.  Each unit gets the edges that lead into it, and nothing else
about it changes. -/
theorem exists_frozenUnits (hsub : sub.Listed) (h : Complete sub done) :
    ∃ units, done.frozenUnits = .ok units ∧ units.length = done.exit ∧
      ∀ {id : UnitId} {unit' : ScheduleUnit}, units[id]? = some unit' →
        ∃ unit, sub.units[id]? = some unit ∧ unit'.bare = unit.frozen ∧
          unit'.edges = edgesInto done.freezingEdges id := by
  have hsize : done.migrants.toArray.size = done.exit := by
    rw [List.size_toArray, length_migrants h]
  have hmigrant : ∀ {id : UnitId} {unit : ScheduleUnit}, done.migrants.toArray[id]? = some unit →
      ∃ old, sub.units[id]? = some old ∧ old.frozen = unit := by
    intro id unit hunit
    have hlt : id < done.exit := hsize ▸ (Array.getElem?_eq_some_iff.mp hunit).1
    rw [List.getElem?_toArray, getElem?_migrants h hlt] at hunit
    exact Option.map_eq_some_iff.mp hunit
  have hids : ∀ {id : UnitId} {unit : ScheduleUnit}, done.migrants.toArray[id]? = some unit →
      unit.id = id := by
    intro id unit hunit
    obtain ⟨old, hold, rfl⟩ := hmigrant hunit
    have hposition := hsub.positions hold
    exact hposition
  have hends : ∀ edge ∈ done.freezingEdges, edge.1 < done.migrants.toArray.size ∧
      edge.2.1 < done.migrants.toArray.size ∧ edge.2.1 ≠ edge.1 := by
    intro edge hedge
    rw [hsize, h.last]
    rcases of_mem_freezingEdges h hedge with ⟨htarget, hsource⟩ | ⟨htarget, hsource⟩
    · rw [htarget]
      exact ⟨Nat.lt_succ_self _, Nat.lt_succ_of_lt hsource, Nat.ne_of_lt hsource⟩
    · rw [hsource]
      exact ⟨Nat.lt_succ_of_lt htarget, Nat.lt_succ_self _, Nat.ne_of_gt htarget⟩
  have hfresh : ∀ edge ∈ done.freezingEdges, ∀ unit, done.migrants.toArray[edge.1]? = some unit →
      edge.2.1 ∉ unit.deps.keys := by
    intro edge _ unit hunit
    obtain ⟨old, _, rfl⟩ := hmigrant hunit
    exact List.not_mem_nil
  obtain ⟨units, hfold, hattaches⟩ :=
    exists_foldlM_attach hids hends (pairwise_freezingEdges h) hfresh
  refine ⟨units.toList, Checked.bind_eq_ok.mpr ⟨units, hfold, rfl⟩, ?_, fun {id unit'} hunit' => ?_⟩
  · rw [Array.length_toList, hattaches.size, hsize]
  · rw [Array.getElem?_toList] at hunit'
    obtain ⟨unit, hunit, hbare, hedges⟩ := hattaches.added hunit'
    obtain ⟨old, hold, rfl⟩ := hmigrant hunit
    exact ⟨old, hold, hbare, by rw [hedges]; rfl⟩

end Graph.Completed

end SlotScheduling
