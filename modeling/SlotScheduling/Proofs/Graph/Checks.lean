import SlotScheduling.Graph.Verify
import SlotScheduling.Proofs.Graph.WellFormed

/-!
# Checks of a graph

A graph passes its checks if and only if nothing comes before its entry or after its exit, all units
are where they say they are, and the dependencies of all control units are good.
-/

namespace SlotScheduling.Graph

variable {g : Graph} {id source : UnitId} {unit : ScheduleUnit} {bundle : EdgeBundle}

theorem verify_eq_ok_iff : g.verify = .ok ⟨⟩ ↔ g.verifyEntry = .ok ⟨⟩ ∧ g.verifyExit = .ok ⟨⟩ ∧
    g.verifyPositions = .ok ⟨⟩ ∧ ∀ id ∈ g.controlUnits, g.verifyUnit id = .ok ⟨⟩ := by
  simp only [verify, Checked.bind_eq_ok, Checked.forM_eq_ok, exists_and_right,
    Checked.exists_punit_eq_ok]

theorem verifyEntry_eq_ok_iff : g.verifyEntry = .ok ⟨⟩ ↔
    g.entryRoot < g.units.size ∧ ∀ source, ¬g.DependsOn g.entryRoot source := by
  simp only [verifyEntry, Checked.bind_eq_ok, unit_eq_ok]
  constructor
  · rintro ⟨unit, hunit, h⟩
    refine ⟨lt_size_of_getElem? hunit, fun source ⟨unit', hunit', hmem⟩ => ?_⟩
    obtain rfl := Option.some.inj (hunit.symm.trans hunit')
    have hsize : unit.deps.size ≠ 0 := by
      rw [Table.size, ← List.length_map (f := Prod.fst)]
      exact Nat.ne_of_gt (List.length_pos_of_mem hmem)
    rw [if_pos hsize] at h
    cases h
  · rintro ⟨hlt, hnone⟩
    have hunit := Array.getElem?_eq_getElem hlt
    refine ⟨_, hunit, if_neg fun hsize => ?_⟩
    obtain ⟨dep, hdep⟩ := List.exists_mem_of_length_pos (Nat.pos_of_ne_zero hsize)
    exact hnone dep.1 ⟨_, hunit, List.mem_map_of_mem hdep⟩

theorem verifyExit_eq_ok_iff : g.verifyExit = .ok ⟨⟩ ↔ ∀ exit, g.exitRoot = some exit →
    exit < g.units.size ∧ ∀ user, ¬g.IsUsedBy exit user := by
  unfold verifyExit
  cases hexit : g.exitRoot with
  | none => simp [pure, Except.pure]
  | some exit =>
      simp only [Checked.bind_eq_ok, unit_eq_ok, Option.some.injEq, forall_eq']
      constructor
      · rintro ⟨unit, hunit, h⟩
        refine ⟨lt_size_of_getElem? hunit, fun user ⟨unit', hunit', hmem⟩ => ?_⟩
        obtain rfl := Option.some.inj (hunit.symm.trans hunit')
        have hsize : unit.uses.size ≠ 0 := Nat.ne_of_gt (List.length_pos_of_mem hmem)
        rw [if_pos hsize] at h
        cases h
      · rintro ⟨hlt, hnone⟩
        have hunit := Array.getElem?_eq_getElem hlt
        refine ⟨_, hunit, if_neg fun hsize => ?_⟩
        obtain ⟨user, huser⟩ := List.exists_mem_of_length_pos (Nat.pos_of_ne_zero hsize)
        exact hnone user ⟨_, hunit, huser⟩

theorem verifyDep_eq_ok {here : Bool} : g.verifyDep unit id source bundle = .ok here ↔
    ¬(bundle.edge.kind = .value ∧ bundle.crossBlock = false ∧ id ≤ source) ∧
      ∃ producer, g.units[source]? = some producer ∧
        ¬(unit.lead.isEntry = true ∧ (producer.terminator = false ∨ bundle.edge.latency ≠ 0)) ∧
        decide (producer.block = unit.block) = here := by
  unfold verifyDep
  dsimp only
  split
  next hbad => exact ⟨nofun, fun h => absurd hbad h.1⟩
  next hgood =>
    simp only [Checked.bind_eq_ok, unit_eq_ok, hgood, not_false_iff, true_and]
    refine exists_congr fun producer => and_congr_right fun _ => ?_
    split
    next hbad => exact ⟨nofun, fun h => absurd hbad h.1⟩
    next hgood => exact ⟨fun h => ⟨hgood, Except.ok.inj h⟩, fun h => congrArg Except.ok h.2⟩

/-- A unit that passes its check has no bad dependencies. -/
theorem exists_verifyDep (hverify : g.verifyUnit id = .ok ⟨⟩) (hunit : g.units[id]? = some unit)
    {dep : UnitId × EdgeBundle} (hdep : dep ∈ unit.deps.entries) :
    ∃ here, g.verifyDep unit id dep.1 dep.2 = .ok here := by
  obtain ⟨unit', hunit', hverify⟩ := Checked.bind_eq_ok.mp hverify
  obtain rfl := Option.some.inj (hunit.symm.trans (unit_eq_ok.mp hunit'))
  obtain ⟨anchored, hfold, _⟩ := Checked.bind_eq_ok.mp hverify
  refine (Checked.foldlM_forall (P := fun _ => True)
    (Q := fun dep _ => ∃ here, g.verifyDep unit id dep.1 dep.2 = .ok here)
    (fun dep _ before after _ hround => ?_) trivial hfold).2 dep hdep
  obtain ⟨here, hhere, _⟩ := Checked.bind_eq_ok.mp hround
  exact ⟨trivial, ⟨here, hhere⟩, fun _ hother => hother⟩

end SlotScheduling.Graph
