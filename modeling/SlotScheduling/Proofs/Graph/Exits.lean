import SlotScheduling.Proofs.Graph.Tidy

/-!
# Exits

Finishing a graph makes its exit wait for the control units that nothing uses until their results
are final, and for the start of the moves that something uses.  It waits for nothing else, and all
that can fail are the checks that follow.
-/

namespace SlotScheduling

/-- A filter keeps the order of the list. -/
theorem Checked.sublist_filterM {α : Type} {list results : List α} {test : α → Checked Bool}
    (h : list.filterM test = .ok results) : results.Sublist list := by
  have hloop : ∀ {list found results : List α}, list.filterAuxM test found = .ok results →
      ∃ kept : List α, kept.Sublist list ∧ results = kept.reverse ++ found := by
    intro list
    induction list with
    | nil =>
        intro found results h
        exact ⟨[], .slnil, (Checked.pure_eq_ok.mp h)⟩
    | cons first rest ih =>
        intro found results h
        obtain ⟨passes, _, h⟩ := Checked.bind_eq_ok.mp h
        obtain ⟨kept, hkept, rfl⟩ := ih h
        cases passes with
        | true => exact ⟨first :: kept, hkept.cons_cons first, by simp⟩
        | false => exact ⟨kept, hkept.cons first, rfl⟩
  obtain ⟨reversed, hreversed, h⟩ := Checked.bind_eq_ok.mp h
  obtain rfl := Checked.pure_eq_ok.mp h
  obtain ⟨kept, hkept, rfl⟩ := hloop hreversed
  simpa using hkept

/-- Edges of which none has a fixed timing, and of which one stays within its iteration, merge. -/
theorem EdgeBundle.exists_addEdge {old : EdgeBundle} {new : DepEdge}
    (hold : old.edge.isFixedTiming = false) (hnew : new.isFixedTiming = false)
    (hlocal : new.distance = 0) : ∃ bundle, old.addEdge new = .ok bundle := by
  have hnone : conflict? old.edge new = none := by simp [conflict?, hold, hnew, hlocal]
  unfold addEdge
  rw [hnone]
  split
  · exact ⟨_, rfl⟩
  · dsimp only
    split <;> exact ⟨_, rfl⟩

namespace Graph

variable {g g' : Graph} {id target source : UnitId} {edge : DepEdge}

/-- A dependency fits if it comes from another unit and merges with what is there. -/
theorem exists_addDep (hg : g.Listed) (hne : source ≠ target) (htarget : target < g.units.size)
    (hsource : source < g.units.size)
    (hjoins : ∀ old, g.bundle? target source = some old → ∃ bundle, old.addEdge edge = .ok bundle) :
    ∃ g', g.addDep target source edge = .ok g' := by
  have hproducer := Array.getElem?_eq_getElem hsource
  have hconsumer := Array.getElem?_eq_getElem htarget
  have hnotSelf : source ≠ g.units[target].id := (hg.positions hconsumer).symm ▸ hne
  have hadd : ∃ result, g.units[target].addDep source g.units[source].block edge = .ok result := by
    rw [ScheduleUnit.addDep, if_neg hnotSelf]
    split
    next old hold =>
      obtain ⟨bundle, hbundle⟩ := hjoins old ((bundle?_eq hconsumer source).trans hold)
      rw [hbundle]
      exact ⟨_, rfl⟩
    next => exact ⟨_, rfl⟩
  obtain ⟨⟨consumer, isFirst⟩, hadd⟩ := hadd
  have hcheck : ∀ {id : UnitId}, id < g.units.size → g.checkUnit id = .ok ⟨⟩ :=
    fun hid => if_pos hid
  simp only [addDep, hcheck htarget, hcheck hsource, unit_eq_ok.mpr hproducer,
    unit_eq_ok.mpr hconsumer, hadd, Checked.ok_bind, changeUnit, if_pos htarget,
    Array.size_modify, if_pos hsource]
  split <;> exact ⟨_, rfl⟩

/-- All other units stay as they are. -/
theorem getElem?_addDep (h : g.addDep target source edge = .ok g') (htarget : id ≠ target)
    (hsource : id ≠ source) : g'.units[id]? = g.units[id]? := by
  obtain ⟨_, _, _, _, _, hcases⟩ := addDep_eq_ok h
  rcases hcases with ⟨_, _, _, _, hchange⟩ | ⟨_, middle, hmiddle, hend⟩
  · rw [getElem?_changeUnit hchange, if_neg htarget.symm]
  · rw [getElem?_changeUnit hend, if_neg hsource.symm, getElem?_changeUnit hmiddle,
      if_neg htarget.symm]

/-- The exit is to wait for the unit: a control unit that nothing uses, or a move. -/
def IsSink (g : Graph) (id : UnitId) : Prop :=
  ∃ unit, g.units[id]? = some unit ∧ unit.control = true ∧ (unit.uses.size = 0 ∨ unit.phi = true)

end Graph

namespace Lowering

open SlotScheduling.Graph

variable {g : Graph} {exit : UnitId} {l : Lowering}

theorem exists_sinks (hg : g.Listed) :
    ∃ found, sinks g = .ok found ∧ found.Nodup ∧ ∀ {id}, id ∈ found ↔ g.IsSink id := by
  obtain ⟨found, hfound⟩ : ∃ found, sinks g = .ok found := by
    refine Checked.exists_filterM fun id hid => ?_
    obtain ⟨unit, hunit, _⟩ := hg.control.mp hid
    exact ⟨_, by rw [unit_eq_ok.mpr hunit]; rfl⟩
  refine ⟨found, hfound, (Checked.sublist_filterM hfound).nodup hg.controlNodup, fun {id} => ?_⟩
  rw [Checked.mem_filterM hfound, hg.control]
  constructor
  · rintro ⟨⟨unit, hunit, hcontrol⟩, htest⟩
    obtain ⟨unit', hunit', htest⟩ := Checked.bind_eq_ok.mp htest
    obtain rfl := Option.some.inj (hunit.symm.trans (unit_eq_ok.mp hunit'))
    exact ⟨unit, hunit, hcontrol, by simpa using (Checked.pure_eq_ok.mp htest).symm⟩
  · rintro ⟨unit, hunit, hcontrol, hsink⟩
    refine ⟨⟨unit, hunit, hcontrol⟩, ?_⟩
    rw [unit_eq_ok.mpr hunit, Checked.ok_bind]
    exact Checked.pure_eq_ok.mpr (by simpa using hsink)

/-- How long the exit waits for a unit: to its end if nothing else uses it. -/
def exitLatency (unit : ScheduleUnit) : Nat := if unit.uses.size = 0 then unit.latency else 0

/-- The exit comes to wait for each of the units, if it does not yet. -/
theorem exists_attachExits {found : List UnitId} (hnodup : found.Nodup) {before : Graph}
    (hlisted : before.Listed) (hexit : exit < before.units.size)
    (hfound : ∀ sink ∈ found, sink < before.units.size ∧ sink ≠ exit ∧
      before.bundle? exit sink = none) :
    ∃ after, found.foldlM (attachExit exit) before = .ok after ∧
      (∀ source ∉ found, after.bundle? exit source = before.bundle? exit source) ∧
      ∀ sink ∈ found, ∀ unit, before.units[sink]? = some unit →
        ∃ bundle, after.bundle? exit sink = some bundle ∧
          bundle.edge = .value (exitLatency unit) := by
  induction found generalizing before with
  | nil => exact ⟨before, rfl, fun _ _ => rfl, fun sink hsink => absurd hsink List.not_mem_nil⟩
  | cons first rest ih =>
      obtain ⟨⟨hlt, hne, hnone⟩, hrest⟩ := List.forall_mem_cons.mp hfound
      obtain ⟨hnew, hnodup⟩ := List.nodup_cons.mp hnodup
      obtain ⟨unit, hfirst⟩ : ∃ unit, before.units[first]? = some unit :=
        ⟨_, Array.getElem?_eq_getElem hlt⟩
      obtain ⟨middle, hadd⟩ : ∃ middle,
          before.addDep exit first (.value (exitLatency unit)) = .ok middle := by
        refine exists_addDep hlisted hne hexit hlt fun old hold => ?_
        cases hnone.symm.trans hold
      have hround : attachExit exit before first = .ok middle := by
        rw [attachExit, unit_eq_ok.mpr hfirst]
        exact hadd
      obtain ⟨bundle, hjoins, hbundles⟩ := bundle?_addDep hlisted hadd
      have hedge : bundle.edge = .value (exitLatency unit) := by
        rcases hjoins with ⟨_, hedge⟩ | ⟨old, hold, _⟩
        · exact hedge
        · cases hnone.symm.trans hold
      have hsize := size_eq_of_bare_eq (bare_addDep hadd)
      have hkept : ∀ {source : UnitId}, source ≠ first →
          middle.bundle? exit source = before.bundle? exit source := fun hsource => by
        rw [hbundles, if_neg fun hpair => hsource hpair.2]
      have hapart : ∀ sink ∈ rest, sink ≠ first := fun sink hsink heq => hnew (heq ▸ hsink)
      obtain ⟨after, hafter, hothers, hsinks⟩ := ih hnodup
        (hlisted.of_bare_eq (bare_addDep hadd)) (hsize ▸ hexit) fun sink hsink => by
          obtain ⟨hlt, hne, hnone⟩ := hrest sink hsink
          exact ⟨hsize ▸ hlt, hne, (hkept (hapart sink hsink)).trans hnone⟩
      refine ⟨after, by rw [List.foldlM_cons, hround]; exact hafter, fun source hsource => ?_, ?_⟩
      · obtain ⟨hsource, hother⟩ := not_or.mp (List.mem_cons.not.mp hsource)
        exact (hothers source hother).trans (hkept hsource)
      · intro sink hsink unit' hunit
        rcases List.mem_cons.mp hsink with rfl | hsink
        · obtain rfl := Option.some.inj (hfirst.symm.trans hunit)
          refine ⟨bundle, ?_, hedge⟩
          rw [hothers sink hnew, hbundles, if_pos ⟨rfl, rfl⟩]
        · have hsame : middle.units[sink]? = before.units[sink]? :=
            getElem?_addDep hadd (hrest sink hsink).2.1 (hapart sink hsink)
          exact hsinks sink hsink unit' (hsame.trans hunit)

/-- The second graph is the lowered one with its exit. -/
structure Finishes (l : Lowering) (g : Graph) : Prop extends Closes l.lastBlock l.graph g where
  waits_iff : ∀ {source}, g.DependsOn l.graph.units.size source ↔ l.graph.IsSink source
  latency : ∀ {source unit}, l.graph.IsSink source → l.graph.units[source]? = some unit →
    ∃ bundle, g.bundle? l.graph.units.size source = some bundle ∧
      bundle.edge = .value (exitLatency unit)

/-- A graph always gets an exit, which is then checked with the rest. -/
theorem exists_finishes (hg : l.graph.WellFormed) :
    ∃ g, Finishes l g ∧ l.finish = (do g.verify; return g) := by
  obtain ⟨found, hfound, hnodup, hmem⟩ := exists_sinks hg.toListed
  have hopen := closes_createExit hg l.lastBlock
  have hlt : ∀ sink ∈ found, sink < l.graph.units.size := fun sink hsink =>
    lt_size_of_getElem? (hmem.mp hsink).choose_spec.1
  have hnone : ∀ source,
      (l.graph.createExit l.lastBlock).bundle? l.graph.units.size source = none := by
    intro source
    simp [bundle?, createExit, createUnit, nextId, ScheduleUnit.dep?, Table.get?]
  have hbelow : ∀ sink ∈ found,
      (l.graph.createExit l.lastBlock).units[sink]? = l.graph.units[sink]? := fun sink hsink =>
    getElem?_createUnit.trans (if_neg (Nat.ne_of_lt (hlt sink hsink)))
  obtain ⟨g, hattach, hothers, hsinks⟩ := exists_attachExits hnodup hopen.toListed
    (hopen.size ▸ Nat.lt_succ_self _) fun sink hsink =>
      ⟨hopen.size ▸ Nat.lt_succ_of_lt (hlt sink hsink), Nat.ne_of_lt (hlt sink hsink), hnone sink⟩
  have hcloses : Closes l.lastBlock l.graph g := by
    refine closes_attachExits hopen (fun sink hsink => ?_) hattach
    obtain ⟨unit, hunit, hcontrol, _⟩ := hmem.mp hsink
    exact ⟨unit, hunit, hcontrol⟩
  have hlatency : ∀ {source unit}, l.graph.IsSink source → l.graph.units[source]? = some unit →
      ∃ bundle, g.bundle? l.graph.units.size source = some bundle ∧
        bundle.edge = .value (exitLatency unit) := fun {source unit} hsink hunit =>
    hsinks source (hmem.mpr hsink) unit ((hbelow source (hmem.mpr hsink)).trans hunit)
  refine ⟨g, ⟨hcloses, fun {source} => ?_, hlatency⟩, ?_⟩
  · rw [dependsOn_iff_bundle?]
    constructor
    · rintro ⟨bundle, hbundle⟩
      by_contra hsink
      rw [hothers source fun hsource => hsink (hmem.mp hsource), hnone] at hbundle
      cases hbundle
    · intro hsink
      obtain ⟨bundle, hbundle, _⟩ := hlatency hsink hsink.choose_spec.1
      exact ⟨bundle, hbundle⟩
  · rw [finish, hfound, Checked.ok_bind]
    show (found.foldlM (attachExit l.graph.units.size) (l.graph.createExit l.lastBlock) >>= _) = _
    rw [hattach]
    rfl

theorem finishes_of_finish (hg : l.graph.WellFormed) (h : l.finish = .ok g) : Finishes l g := by
  obtain ⟨closed, hcloses, hfinish⟩ := exists_finishes hg
  rw [hfinish] at h
  obtain ⟨_, _, h⟩ := Checked.bind_eq_ok.mp h
  exact Checked.pure_eq_ok.mp h ▸ hcloses

end Lowering

end SlotScheduling
