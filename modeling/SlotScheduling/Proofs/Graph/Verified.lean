import SlotScheduling.Proofs.Graph.Tidy

/-!
# Graphs that pass their checks

The checks look at slots only where a unit has none, and at latencies only in front of entries.  A
graph that has passed them passes them again once its control units are placed, whatever has become
of the latencies in front of its exit.
-/

namespace SlotScheduling.Graph

variable {g h : Graph} {id source : UnitId} {unit : ScheduleUnit} {bundle : EdgeBundle}

/-- A unit that has a slot and no bad dependencies passes its check. -/
theorem verifyUnit_of_slot (hunit : g.units[id]? = some unit) (hslot : unit.slot ≠ none)
    (hdeps : ∀ dep ∈ unit.deps.entries, ∃ here, g.verifyDep unit id dep.1 dep.2 = .ok here) :
    g.verifyUnit id = .ok ⟨⟩ := by
  obtain ⟨anchored, hfold, _⟩ : ∃ anchored, unit.deps.entries.foldlM (fun anchored dep => do
      return (← g.verifyDep unit id dep.1 dep.2) || anchored) unit.lead.isEntry =
        .ok anchored ∧ True := by
    refine Checked.exists_foldlM (fun dep hdep anchored _ => ?_) trivial
    obtain ⟨here, hhere⟩ := hdeps dep hdep
    exact ⟨here || anchored, by rw [hhere]; rfl, trivial⟩
  have hdetached : ¬(unit.slot = none ∧ unit.uses.size = 0 ∧ some id ≠ g.exitRoot) :=
    fun hnone => hslot hnone.1
  have hfloating : ¬(unit.slot = none ∧ unit.fixedTiming = false ∧ anchored = false) :=
    fun hnone => hslot hnone.1
  rw [verifyUnit, unit_eq_ok.mpr hunit, Checked.ok_bind, hfold, Checked.ok_bind, if_neg hdetached,
    if_neg hfloating]
  rfl

/-! ## Placed graphs -/

theorem exists_dep_of_skeleton_eq {unit' : ScheduleUnit} (hsame : unit.skeleton = unit'.skeleton)
    {dep : UnitId × EdgeBundle} (hdep : dep ∈ unit.deps.entries) :
    ∃ dep' ∈ unit'.deps.entries, dep'.1 = dep.1 ∧
      dep'.2.withLatency 0 = dep.2.withLatency 0 := by
  have hdeps := congrArg (fun unit : ScheduleUnit => unit.deps.entries) hsame
  simp only [ScheduleUnit.skeleton] at hdeps
  have hmem : (dep.1, dep.2.withLatency 0) ∈
      unit'.deps.entries.map fun dep => (dep.1, dep.2.withLatency 0) :=
    hdeps ▸ List.mem_map_of_mem hdep
  obtain ⟨dep', hdep', heq⟩ := List.mem_map.mp hmem
  exact ⟨dep', hdep', (Prod.mk.inj heq).1, (Prod.mk.inj heq).2⟩

theorem verifyEntry_of_skeleton_eq (hskeleton : h.skeleton = g.skeleton)
    (hverify : g.verifyEntry = .ok ⟨⟩) : h.verifyEntry = .ok ⟨⟩ := by
  obtain ⟨hlt, hfirst⟩ := verifyEntry_eq_ok_iff.mp hverify
  exact verifyEntry_eq_ok_iff.mpr ⟨size_eq_of_skeleton_eq hskeleton ▸ hlt, fun source hdepends =>
    hfirst source (dependsOn_of_outline_eq (outline_eq_of_skeleton_eq hskeleton) hdepends)⟩

theorem verifyExit_of_skeleton_eq (hskeleton : h.skeleton = g.skeleton)
    (hverify : g.verifyExit = .ok ⟨⟩) : h.verifyExit = .ok ⟨⟩ := by
  have hroot : h.exitRoot = g.exitRoot := eq_of_skeleton_eq (·.exitRoot) hskeleton fun _ => rfl
  refine verifyExit_eq_ok_iff.mpr fun exit hexit => ?_
  obtain ⟨hlt, hlast⟩ := verifyExit_eq_ok_iff.mp hverify exit (hroot ▸ hexit)
  exact ⟨size_eq_of_skeleton_eq hskeleton ▸ hlt, fun user huse =>
    hlast user (isUsedBy_of_outline_eq (outline_eq_of_skeleton_eq hskeleton) huse)⟩

theorem verifyPositions_of_listed (hg : g.Listed) : g.verifyPositions = .ok ⟨⟩ := by
  refine Checked.forM_eq_ok.mpr fun ⟨unit, position⟩ hmem => ?_
  have hunit : g.units[position]? = some unit := by
    simpa using List.mem_zipIdx_iff_getElem?.mp hmem
  exact if_neg (not_not.mpr (hg.positions hunit))

/-- A graph that has passed its checks passes them again once its control units are placed. -/
theorem verify_of_skeleton_eq (hg : g.Listed) (hskeleton : h.skeleton = g.skeleton)
    (hslots : ∀ {id}, h.IsControl id → ∃ slot, h.slot? id = some slot)
    (hexit : ∀ {exit unit}, g.exitRoot = some exit → g.units[exit]? = some unit →
      unit.lead.isEntry = false)
    (hverify : g.verify = .ok ⟨⟩) : h.verify = .ok ⟨⟩ := by
  obtain ⟨hentry, hexits, _, hunits⟩ := verify_eq_ok_iff.mp hverify
  have hh : h.Listed := hg.of_outline_eq (outline_eq_of_skeleton_eq hskeleton)
  refine verify_eq_ok_iff.mpr ⟨verifyEntry_of_skeleton_eq hskeleton hentry,
    verifyExit_of_skeleton_eq hskeleton hexits, verifyPositions_of_listed hh, fun id hid => ?_⟩
  obtain ⟨unit, hunit, hcontrol⟩ := hh.control.mp hid
  obtain ⟨slot, hslot⟩ := hslots ⟨unit, hunit, hcontrol⟩
  rw [slot?_eq hunit] at hslot
  obtain ⟨unit', hunit', hsame, hagree⟩ := exists_of_skeleton_eq hskeleton hunit
  have hlead : unit'.lead = unit.lead := by
    have hlead := congrArg ScheduleUnit.lead hsame
    exact hlead.symm
  have hcontrol' : g.IsControl id :=
    ⟨unit', hunit', (ScheduleUnit.control_of_skeleton_eq hsame).symm.trans hcontrol⟩
  refine verifyUnit_of_slot hunit (by simp [hslot]) fun dep hdep => ?_
  -- Latencies differ in front of the exit alone, which is no entry.
  obtain ⟨dep', hdep', hsource, hbundle, hlatency⟩ : ∃ dep' ∈ unit'.deps.entries,
      dep'.1 = dep.1 ∧ dep'.2.withLatency 0 = dep.2.withLatency 0 ∧
        (unit.lead.isEntry = true → dep'.2.edge.latency = dep.2.edge.latency) := by
    by_cases hid : g.exitRoot = some id
    · obtain ⟨dep', hdep', hsource, hbundle⟩ := exists_dep_of_skeleton_eq hsame hdep
      refine ⟨dep', hdep', hsource, hbundle, fun hentry => ?_⟩
      rw [← hlead, hexit hid hunit'] at hentry
      cases hentry
    · exact ⟨dep, (hagree hid).deps ▸ hdep, rfl, rfl, fun _ => rfl⟩
  obtain ⟨here, hhere⟩ := exists_verifyDep (hunits id (hg.control.mpr hcontrol')) hunit' hdep'
  obtain ⟨hvalue, producer, hproducer, hbranch, _⟩ := verifyDep_eq_ok.mp hhere
  obtain ⟨producer', hproducer', hproducers, -⟩ := exists_of_skeleton_eq hskeleton.symm hproducer
  have hterminator : producer'.terminator = producer.terminator := by
    have hterminator := congrArg ScheduleUnit.terminator hproducers
    exact hterminator.symm
  have hkind : dep'.2.edge.kind = dep.2.edge.kind := by
    have hkind := congrArg (fun bundle : EdgeBundle => bundle.edge.kind) hbundle
    exact hkind
  have hcross : dep'.2.crossBlock = dep.2.crossBlock := by
    have hcross := congrArg EdgeBundle.crossBlock hbundle
    exact hcross
  rw [hkind, hcross, hsource] at hvalue
  refine ⟨_, verifyDep_eq_ok.mpr ⟨hvalue, producer', hsource ▸ hproducer', ?_, rfl⟩⟩
  rintro ⟨hentry, hbad⟩
  rw [hterminator, ← hlatency hentry] at hbad
  exact hbranch ⟨hlead ▸ hentry, hbad⟩

end SlotScheduling.Graph
