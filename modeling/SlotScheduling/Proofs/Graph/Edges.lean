import SlotScheduling.Proofs.Graph.WellFormed

/-!
# Changes of dependencies

Adding a dependency and removing one change the edges between a single pair of
units.  They leave everything else about the units as it is, and a well-formed
graph stays well-formed.
-/

namespace SlotScheduling

/-- The unit without the units that it depends on and that depend on it. -/
def ScheduleUnit.bare (unit : ScheduleUnit) : ScheduleUnit :=
  { unit with deps := {}, uses := {} }

theorem Table.mem_keys_erase {κ ν : Type} [DecidableEq κ] {table : Table κ ν} {key other : κ} :
    other ∈ (table.erase key).keys ↔ other ≠ key ∧ other ∈ table.keys := by
  simp only [mem_keys_iff, get?_erase]
  by_cases h : key = other
  · simp [h]
  · simp [h, Ne.symm h]

namespace EdgeBundle

theorem addEdge_cases {old bundle : EdgeBundle} {new : DepEdge}
    (h : old.addEdge new = .ok bundle) :
    bundle.edge = old.edge ∧
        (old.edge = new ∨ ¬(new.distance ≤ old.edge.distance ∧ old.edge.latency < new.latency)) ∨
      bundle.edge = new ∧ new.distance ≤ old.edge.distance ∧ old.edge.latency < new.latency := by
  unfold addEdge at h
  split at h
  next heq =>
    cases h
    exact Or.inl ⟨rfl, Or.inl heq⟩
  · split at h
    · cases h
    · split at h
      next htakes =>
        cases h
        exact Or.inr ⟨rfl, htakes⟩
      next hnot =>
        cases h
        exact Or.inl ⟨rfl, Or.inr hnot⟩

end EdgeBundle

namespace Graph

/-- The graph without its dependencies. -/
def bare (g : Graph) : Graph := { g with units := g.units.map ScheduleUnit.bare }

variable {g g' : Graph} {id target source : UnitId} {edge : DepEdge}

/-! ## Graphs that differ in dependencies -/

theorem getElem?_of_bare_eq (h : g'.bare = g.bare) (id : UnitId) :
    g'.units[id]?.map ScheduleUnit.bare = g.units[id]?.map ScheduleUnit.bare := by
  have hget := congrArg (fun g : Graph => g.units[id]?) h
  simpa [bare] using hget

/-- What can be read off a part of a unit holds of two units that agree in that part. -/
theorem exists_iff_of_map_eq {part : ScheduleUnit → ScheduleUnit} {P : ScheduleUnit → Prop}
    (h : g'.units[id]?.map part = g.units[id]?.map part) (hP : ∀ unit, P (part unit) ↔ P unit) :
    (∃ unit, g'.units[id]? = some unit ∧ P unit) ↔ ∃ unit, g.units[id]? = some unit ∧ P unit := by
  have hpart : ∀ found : Option ScheduleUnit, (∃ unit, found = some unit ∧ P unit) ↔
      ∃ unit, found.map part = some unit ∧ P unit := by
    rintro (_ | unit) <;> simp [hP]
  rw [hpart, h, ← hpart]

theorem slot?_eq_of_getElem?_eq
    (h : g'.units[id]?.map ScheduleUnit.bare = g.units[id]?.map ScheduleUnit.bare) :
    g'.slot? id = g.slot? id := by
  have hbare : ∀ found : Option ScheduleUnit,
      found.bind (·.slot) = (found.map ScheduleUnit.bare).bind (·.slot) := by
    rintro (_ | unit) <;> rfl
  rw [slot?, hbare, h, ← hbare, slot?]

theorem slot?_of_bare_eq (h : g'.bare = g.bare) (id : UnitId) : g'.slot? id = g.slot? id :=
  slot?_eq_of_getElem?_eq (getElem?_of_bare_eq h id)

theorem isControl_iff_of_bare_eq (h : g'.bare = g.bare) : g'.IsControl id ↔ g.IsControl id :=
  exists_iff_of_map_eq (getElem?_of_bare_eq h id) fun _ => Iff.rfl

theorem isData_iff_of_bare_eq (h : g'.bare = g.bare) : g'.IsData id ↔ g.IsData id :=
  exists_iff_of_map_eq (getElem?_of_bare_eq h id) fun _ => Iff.rfl

theorem Listed.of_bare_eq (hg : g.Listed) (h : g'.bare = g.bare) : g'.Listed where
  positions := by
    intro id unit hunit
    have hid := getElem?_of_bare_eq h id
    rw [hunit, Option.map_some] at hid
    obtain ⟨unit', hunit', heq⟩ := Option.map_eq_some_iff.mp hid.symm
    have hsame : unit'.id = unit.id := by
      have hsame := congrArg ScheduleUnit.id heq
      exact hsame
    exact hsame.symm.trans (hg.positions hunit')
  control := by
    intro id
    have hunits := congrArg Graph.controlUnits h
    rw [isControl_iff_of_bare_eq h, ← hg.control]
    exact Iff.of_eq (congrArg (id ∈ ·) hunits)
  data := by
    intro id
    have hunits := congrArg Graph.dataUnits h
    rw [isData_iff_of_bare_eq h, ← hg.data]
    exact Iff.of_eq (congrArg (id ∈ ·) hunits)
  controlNodup := by
    have hunits : g'.controlUnits = g.controlUnits := by
      have hunits := congrArg Graph.controlUnits h
      exact hunits
    exact hunits ▸ hg.controlNodup
  dataNodup := by
    have hunits : g'.dataUnits = g.dataUnits := by
      have hunits := congrArg Graph.dataUnits h
      exact hunits
    exact hunits ▸ hg.dataNodup

theorem dependsOn_iff_bundle? {user source : UnitId} :
    g.DependsOn user source ↔ ∃ bundle, g.bundle? user source = some bundle := by
  simp only [DependsOn, Table.mem_keys_iff, bundle?, Option.bind_eq_some_iff, ScheduleUnit.dep?]
  constructor
  · rintro ⟨unit, hunit, bundle, hbundle⟩
    exact ⟨bundle, unit, hunit, hbundle⟩
  · rintro ⟨bundle, unit, hunit, hbundle⟩
    exact ⟨unit, hunit, bundle, hbundle⟩

theorem bare_changeUnit {change : ScheduleUnit → ScheduleUnit}
    (h : g.changeUnit id change = .ok g') (hchange : ∀ unit, (change unit).bare = unit.bare) :
    g'.bare = g.bare := by
  obtain ⟨_, rfl⟩ := changeUnit_eq_ok.mp h
  simp only [bare, map_modify_eq hchange]

theorem bundle?_changeUnit {change : ScheduleUnit → ScheduleUnit}
    (h : g.changeUnit id change = .ok g') (hchange : ∀ unit, (change unit).deps = unit.deps) :
    g'.bundle? = g.bundle? := by
  funext target source
  simp only [bundle?, getElem?_changeUnit h]
  split
  · cases g.units[target]? with
    | none => rfl
    | some unit => exact congrArg (Table.get? · source) (hchange unit)
  · rfl

/-- With the dependencies of one unit changed, the edges to all others stay. -/
theorem bundle?_changeUnit_deps {change : ScheduleUnit → ScheduleUnit} {unit : ScheduleUnit}
    (hunit : g.units[id]? = some unit) (h : g.changeUnit id change = .ok g') :
    g'.bundle? = fun target =>
      if target = id then (change unit).dep? else g.bundle? target := by
  funext target source
  simp only [bundle?, getElem?_changeUnit h]
  by_cases heq : target = id
  · subst heq
    simp [hunit]
  · simp [heq, Ne.symm heq, bundle?]

/-! ## Adding a dependency -/

theorem bare_addDep (h : g.addDep target source edge = .ok g') : g'.bare = g.bare := by
  obtain ⟨_, _, _, _, _, hcases⟩ := addDep_eq_ok h
  rcases hcases with ⟨_, _, _, _, hchange⟩ | ⟨_, middle, hmiddle, hend⟩
  · exact bare_changeUnit hchange fun _ => rfl
  · have hmiddle : middle.bare = g.bare := bare_changeUnit hmiddle fun _ => rfl
    have hend : g'.bare = middle.bare := bare_changeUnit hend fun _ => rfl
    exact hend.trans hmiddle

/-- The edge is the only one of its pair, or it was merged with those that were there. -/
def Joins (before : Option EdgeBundle) (edge : DepEdge) (after : EdgeBundle) : Prop :=
  (before = none ∧ after.edge = edge) ∨
    ∃ old, before = some old ∧ old.addEdge edge = .ok after

/-- Edges within one iteration merge to such an edge. -/
theorem Joins.distance_eq_zero {before : Option EdgeBundle} {after : EdgeBundle}
    (h : Joins before edge after) (hedge : edge.distance = 0)
    (hbefore : ∀ old ∈ before, old.edge.distance = 0) : after.edge.distance = 0 := by
  rcases h with ⟨_, heq⟩ | ⟨old, hold, hadd⟩
  · rw [heq, hedge]
  · rcases EdgeBundle.addEdge_cases hadd with ⟨heq, _⟩ | ⟨heq, _⟩
    · rw [heq, hbefore old hold]
    · rw [heq, hedge]

theorem joins_of_addDep {unit unit' : ScheduleUnit} {source : UnitId} {block : BlockId}
    {edge : DepEdge} {isFirst : Bool} (h : unit.addDep source block edge = .ok (unit', isFirst)) :
    unit'.bare = unit.bare ∧ unit'.uses = unit.uses ∧
      ∃ bundle, Joins (unit.dep? source) edge bundle ∧
        ∀ other, unit'.dep? other = if other = source then some bundle else unit.dep? other := by
  unfold ScheduleUnit.addDep at h
  split at h
  · cases h
  · split at h
    next old hold =>
      split at h
      next bundle hbundle =>
        cases h
        refine ⟨rfl, rfl, bundle, Or.inr ⟨old, hold, hbundle⟩, fun other => ?_⟩
        have hmodified := unit.deps.get?_modify source other fun _ => bundle
        by_cases heq : other = source
        · subst heq
          rw [ScheduleUnit.dep?] at hold
          rw [ScheduleUnit.dep?, hmodified, if_pos rfl, hold, if_pos rfl]
          rfl
        · rw [ScheduleUnit.dep?, hmodified, if_neg (Ne.symm heq), if_neg heq, ScheduleUnit.dep?]
      next => cases h
    next hnone =>
      cases h
      refine ⟨rfl, rfl, { edge, crossBlock := decide (block ≠ unit.block) },
        Or.inl ⟨hnone, rfl⟩, fun other => ?_⟩
      simp only [ScheduleUnit.dep?, Table.get?_insert, eq_comm]

theorem bundle?_addDep (hg : g.Listed) (h : g.addDep target source edge = .ok g') :
    ∃ bundle, Joins (g.bundle? target source) edge bundle ∧ ∀ user other,
      g'.bundle? user other =
        if user = target ∧ other = source then some bundle else g.bundle? user other := by
  obtain ⟨hne, producer, consumer, hproducer, hconsumer, hcases⟩ := addDep_cases hg h
  rcases hcases with ⟨old, bundle, hold, hbundle, hchange⟩ | ⟨hnone, middle, hmiddle, hend⟩
  · refine ⟨bundle, Or.inr ⟨old, (bundle?_eq hconsumer source).trans hold, hbundle⟩, ?_⟩
    intro user other
    have hmodified := consumer.deps.get?_modify source other fun _ => bundle
    rw [bundle?_changeUnit_deps hconsumer hchange]
    by_cases huser : user = target
    · subst huser
      simp only [if_pos, true_and, ScheduleUnit.dep?, bundle?_eq hconsumer, hmodified]
      by_cases hother : other = source
      · subst hother
        rw [ScheduleUnit.dep?] at hold
        simp [hold]
      · simp [hother, Ne.symm hother]
    · simp [huser]
  · refine ⟨{ edge, crossBlock := decide (producer.block ≠ consumer.block) },
      Or.inl ⟨(bundle?_eq hconsumer source).trans hnone, rfl⟩, fun user other => ?_⟩
    have hinserted := consumer.deps.get?_insert source other
      { edge, crossBlock := decide (producer.block ≠ consumer.block) }
    rw [bundle?_changeUnit hend fun _ => rfl, bundle?_changeUnit_deps hconsumer hmiddle]
    by_cases huser : user = target
    · subst huser
      simp only [if_pos, true_and, ScheduleUnit.dep?, bundle?_eq hconsumer, hinserted]
      by_cases hother : other = source
      · simp [hother]
      · simp [hother, Ne.symm hother]
    · simp [huser]

/-! ## Removing a dependency -/

theorem removeDep_cases (h : g.removeDep target source = .ok g') :
    ∃ consumer, g.units[target]? = some consumer ∧
      ((consumer.dep? source = none ∧ g' = g) ∨
        ∃ middle, g.changeUnit target (·.removeDep source) = .ok middle ∧
          middle.changeUnit source (·.removeUse target) = .ok g') := by
  obtain ⟨consumer, hconsumer, h⟩ := Checked.bind_eq_ok.mp h
  refine ⟨consumer, unit_eq_ok.mp hconsumer, ?_⟩
  split at h
  · exact Or.inr (Checked.bind_eq_ok.mp h)
  next hnone => exact Or.inl ⟨by simpa using hnone, Checked.pure_eq_ok.mp h⟩

theorem bare_removeDep (h : g.removeDep target source = .ok g') : g'.bare = g.bare := by
  obtain ⟨_, _, hcases⟩ := removeDep_cases h
  rcases hcases with ⟨_, rfl⟩ | ⟨middle, hmiddle, hend⟩
  · rfl
  · have hmiddle : middle.bare = g.bare := bare_changeUnit hmiddle fun _ => rfl
    have hend : g'.bare = middle.bare := bare_changeUnit hend fun _ => rfl
    exact hend.trans hmiddle

theorem bundle?_removeDep (h : g.removeDep target source = .ok g') (user other : UnitId) :
    g'.bundle? user other =
      if user = target ∧ other = source then none else g.bundle? user other := by
  obtain ⟨consumer, hconsumer, hcases⟩ := removeDep_cases h
  rcases hcases with ⟨hnone, rfl⟩ | ⟨middle, hmiddle, hend⟩
  · split
    next heq =>
      obtain ⟨rfl, rfl⟩ := heq
      rw [bundle?_eq hconsumer, hnone]
    next => rfl
  · have herased := consumer.deps.get?_erase source other
    rw [bundle?_changeUnit hend fun _ => rfl, bundle?_changeUnit_deps hconsumer hmiddle]
    by_cases huser : user = target
    · subst huser
      simp only [if_pos, true_and, ScheduleUnit.dep?, ScheduleUnit.removeDep, herased,
        bundle?_eq hconsumer]
      by_cases hother : other = source
      · simp [hother]
      · simp [hother, Ne.symm hother]
    · simp [huser]

theorem dependsOn_removeDep {middle : Graph}
    (h : g.changeUnit target (·.removeDep source) = .ok middle) {user other : UnitId} :
    middle.DependsOn user other ↔ ¬(user = target ∧ other = source) ∧ g.DependsOn user other := by
  rw [DependsOn, DependsOn, exists_changeUnit h]
  by_cases heq : target = user
  · subst heq
    simp [ScheduleUnit.removeDep, Table.mem_keys_erase]
    tauto
  · simp [heq, Ne.symm heq]

theorem isUsedBy_removeUse {middle : Graph}
    (h : g.changeUnit source (·.removeUse target) = .ok middle) {user other : UnitId} :
    middle.IsUsedBy other user ↔ ¬(user = target ∧ other = source) ∧ g.IsUsedBy other user := by
  rw [IsUsedBy, IsUsedBy, exists_changeUnit h]
  by_cases heq : source = other
  · subst heq
    simp [ScheduleUnit.removeUse, IndexSet.mem_erase]
    tauto
  · simp [heq, Ne.symm heq]

theorem WellFormed.removeDep (hg : g.WellFormed) (h : g.removeDep target source = .ok g') :
    g'.WellFormed := by
  obtain ⟨_, _, hcases⟩ := removeDep_cases h
  rcases hcases with ⟨_, rfl⟩ | ⟨middle, hmiddle, hend⟩
  · exact hg
  · have hlisted : middle.Listed := hg.toListed.changeUnit hmiddle (fun _ => rfl) fun _ => rfl
    refine ⟨hlisted.changeUnit hend (fun _ => rfl) fun _ => rfl, ?_⟩
    intro user other
    rw [dependsOn_changeUnit hend fun _ => rfl, dependsOn_removeDep hmiddle,
      isUsedBy_removeUse hend, isUsedBy_changeUnit hmiddle fun _ => rfl, hg.linked]

end Graph

end SlotScheduling
