import SlotScheduling.Graph.Freezing
import SlotScheduling.Proofs.Graph.Changes
import SlotScheduling.Proofs.Tables

/-!
# Well-formed graphs

In a well-formed graph every unit knows its position, the control units and the
data-path units are listed, and the uses of a unit are the units that depend on
it.  Scheduling keeps all of that, since it only depends on the outline of the
graph.
-/

namespace SlotScheduling

namespace ScheduleUnit

/-- The unit without flags that its place in the graph does not depend on. -/
def outline (unit : ScheduleUnit) : ScheduleUnit :=
  { unit.skeleton with terminator := false, phi := false, writeUntilFinish := false }

theorem keys_skeleton (unit : ScheduleUnit) : unit.skeleton.deps.keys = unit.deps.keys := by
  simp only [skeleton, Table.keys, List.map_map]
  rfl

theorem keys_eq_of_outline_eq {unit unit' : ScheduleUnit}
    (h : unit.outline = unit'.outline) : unit.deps.keys = unit'.deps.keys := by
  have hkeys := congrArg (fun unit => unit.deps.keys) h
  have hunit := unit.keys_skeleton
  have hunit' := unit'.keys_skeleton
  simp only [outline] at hkeys
  rw [← hunit, hkeys, hunit']

/-- The outline tells everything about the dependencies but their latencies. -/
theorem deps_of_outline_eq {unit unit' : ScheduleUnit} (h : unit.outline = unit'.outline) :
    unit.deps.entries.map (fun dep => (dep.1, dep.2.withLatency 0)) =
      unit'.deps.entries.map fun dep => (dep.1, dep.2.withLatency 0) := by
  have hdeps := congrArg (fun unit => unit.deps.entries) h
  exact hdeps

end ScheduleUnit

namespace Graph

/-- The graph without anything that its structure does not depend on. -/
def outline (g : Graph) : Graph :=
  { g.skeleton with
    units := g.units.map ScheduleUnit.outline
    terminators := {}
    loopOp := none
    exitRoot := none }

variable {g g' : Graph} {id user source : UnitId} {unit : ScheduleUnit}

theorem outline_eq_of_skeleton_eq (h : g'.skeleton = g.skeleton) :
    g'.outline = g.outline := by
  have houtline : ∀ unit : ScheduleUnit, unit.outline = unit.skeleton.outline := by
    intro unit
    simp only [ScheduleUnit.outline, ScheduleUnit.skeleton, List.map_map]
    rfl
  have hgraph : ∀ g : Graph, g.skeleton.outline = g.outline := by
    intro g
    simp only [outline, skeleton]
    congr 1
    refine Array.ext_getElem? fun id => ?_
    simp only [Array.getElem?_map, Array.getElem?_mapIdx, Option.map_map]
    congr 1
    funext unit
    simp only [Function.comp]
    split
    · exact (houtline unit).symm
    · rfl
  rw [← hgraph g', h, hgraph g]

theorem exists_of_outline_eq (h : g'.outline = g.outline) (hunit : g'.units[id]? = some unit) :
    ∃ unit', g.units[id]? = some unit' ∧ unit.outline = unit'.outline := by
  have hmap : g'.units.map ScheduleUnit.outline = g.units.map ScheduleUnit.outline :=
    congrArg Graph.units h
  have hget := congrArg (fun units => units[id]?) hmap
  simp only [Array.getElem?_map, hunit, Option.map_some] at hget
  obtain ⟨unit', hunit', heq⟩ := Option.map_eq_some_iff.mp hget.symm
  exact ⟨unit', hunit', heq.symm⟩

theorem exists_bundle_of_outline_eq {bundle : EdgeBundle} (h : g'.outline = g.outline)
    (hbundle : g'.bundle? user source = some bundle) :
    ∃ bundle', g.bundle? user source = some bundle' ∧
      bundle.withLatency 0 = bundle'.withLatency 0 := by
  have hget : ∀ unit : ScheduleUnit,
      ((unit.deps.entries.map fun dep => (dep.1, dep.2.withLatency 0)).find?
        (·.1 = source)).map Prod.snd = (unit.dep? source).map (·.withLatency 0) := by
    intro unit
    rw [List.find?_map, Option.map_map, ScheduleUnit.dep?, Table.get?, Option.map_map]
    rfl
  obtain ⟨unit, hunit, hdep⟩ := exists_of_bundle? hbundle
  obtain ⟨unit', hunit', houtline⟩ := exists_of_outline_eq h hunit
  have hdeps := hget unit
  rw [ScheduleUnit.deps_of_outline_eq houtline, hget unit', hdep] at hdeps
  obtain ⟨bundle', hdep', heq⟩ := Option.map_eq_some_iff.mp hdeps
  exact ⟨bundle', (bundle?_eq hunit' source).trans hdep', heq.symm⟩

def DependsOn (g : Graph) (user source : UnitId) : Prop :=
  ∃ unit, g.units[user]? = some unit ∧ source ∈ unit.deps.keys

def IsUsedBy (g : Graph) (source user : UnitId) : Prop :=
  ∃ unit, g.units[source]? = some unit ∧ user ∈ unit.uses

/-- The unit exists, and is one of the control path. -/
def IsControl (g : Graph) (id : UnitId) : Prop :=
  ∃ unit, g.units[id]? = some unit ∧ unit.control = true

/-- The unit exists, and is one of the data path. -/
def IsData (g : Graph) (id : UnitId) : Prop :=
  ∃ unit, g.units[id]? = some unit ∧ unit.control = false

structure Listed (g : Graph) : Prop where
  positions : ∀ {id : UnitId} {unit : ScheduleUnit}, g.units[id]? = some unit → unit.id = id
  control : ∀ {id}, id ∈ g.controlUnits ↔ g.IsControl id
  data : ∀ {id}, id ∈ g.dataUnits ↔ g.IsData id
  controlNodup : g.controlUnits.Nodup
  dataNodup : g.dataUnits.Nodup

structure WellFormed (g : Graph) : Prop extends Listed g where
  linked : ∀ {user source}, g.DependsOn user source ↔ g.IsUsedBy source user

theorem dependsOn_of_outline_eq (h : g'.outline = g.outline) (hdep : g'.DependsOn user source) :
    g.DependsOn user source := by
  obtain ⟨unit, hunit, hmem⟩ := hdep
  obtain ⟨unit', hunit', heq⟩ := exists_of_outline_eq h hunit
  exact ⟨unit', hunit', ScheduleUnit.keys_eq_of_outline_eq heq ▸ hmem⟩

theorem isUsedBy_of_outline_eq (h : g'.outline = g.outline) (huse : g'.IsUsedBy source user) :
    g.IsUsedBy source user := by
  obtain ⟨unit, hunit, hmem⟩ := huse
  obtain ⟨unit', hunit', heq⟩ := exists_of_outline_eq h hunit
  exact ⟨unit', hunit', (congrArg (fun unit : ScheduleUnit => user ∈ unit.uses) heq).mp hmem⟩

theorem isControl_of_outline_eq (h : g'.outline = g.outline) (hcontrol : g'.IsControl id) :
    g.IsControl id := by
  obtain ⟨unit, hunit, hflag⟩ := hcontrol
  obtain ⟨unit', hunit', heq⟩ := exists_of_outline_eq h hunit
  exact ⟨unit', hunit', (congrArg ScheduleUnit.control heq).symm.trans hflag⟩

theorem isData_of_outline_eq (h : g'.outline = g.outline) (hdata : g'.IsData id) :
    g.IsData id := by
  obtain ⟨unit, hunit, hflag⟩ := hdata
  obtain ⟨unit', hunit', heq⟩ := exists_of_outline_eq h hunit
  exact ⟨unit', hunit', (congrArg ScheduleUnit.control heq).symm.trans hflag⟩

theorem isControl_iff_of_frame_eq (h : g'.frame = g.frame) :
    g'.IsControl id ↔ g.IsControl id :=
  have houtline := outline_eq_of_skeleton_eq (skeleton_eq_of_frame_eq h)
  ⟨isControl_of_outline_eq houtline, isControl_of_outline_eq houtline.symm⟩

theorem isData_iff_of_frame_eq (h : g'.frame = g.frame) : g'.IsData id ↔ g.IsData id :=
  have houtline := outline_eq_of_skeleton_eq (skeleton_eq_of_frame_eq h)
  ⟨isData_of_outline_eq houtline, isData_of_outline_eq houtline.symm⟩

theorem IsControl.not_isData (h : g.IsControl id) : ¬g.IsData id := by
  rintro ⟨unit, hunit, hdata⟩
  obtain ⟨unit', hunit', hcontrol⟩ := h
  obtain rfl := Option.some.inj (hunit.symm.trans hunit')
  rw [hcontrol] at hdata
  cases hdata

theorem isControl_or_isData (hid : id < g.units.size) : g.IsControl id ∨ g.IsData id := by
  have hunit := Array.getElem?_eq_getElem hid
  cases hflag : (g.units[id]).control with
  | true => exact Or.inl ⟨_, hunit, hflag⟩
  | false => exact Or.inr ⟨_, hunit, hflag⟩

theorem controlUnits_eq_of_outline_eq (h : g'.outline = g.outline) :
    g'.controlUnits = g.controlUnits := by
  have hunits := congrArg Graph.controlUnits h
  exact hunits

theorem dataUnits_eq_of_outline_eq (h : g'.outline = g.outline) :
    g'.dataUnits = g.dataUnits := by
  have hunits := congrArg Graph.dataUnits h
  exact hunits

theorem Listed.of_outline_eq (hg : g.Listed) (h : g'.outline = g.outline) : g'.Listed where
  positions := by
    intro id unit hunit
    obtain ⟨unit', hunit', heq⟩ := exists_of_outline_eq h hunit
    have hid : unit.id = unit'.id := by
      have hid := congrArg ScheduleUnit.id heq
      exact hid
    rw [hid, hg.positions hunit']
  control := by
    intro id
    rw [controlUnits_eq_of_outline_eq h, hg.control]
    exact ⟨isControl_of_outline_eq h.symm, isControl_of_outline_eq h⟩
  data := by
    intro id
    rw [dataUnits_eq_of_outline_eq h, hg.data]
    exact ⟨isData_of_outline_eq h.symm, isData_of_outline_eq h⟩
  controlNodup := controlUnits_eq_of_outline_eq h ▸ hg.controlNodup
  dataNodup := dataUnits_eq_of_outline_eq h ▸ hg.dataNodup

theorem WellFormed.of_outline_eq (hg : g.WellFormed) (h : g'.outline = g.outline) :
    g'.WellFormed where
  toListed := hg.toListed.of_outline_eq h
  linked := by
    intro user source
    have hdeps : g'.DependsOn user source ↔ g.DependsOn user source :=
      ⟨dependsOn_of_outline_eq h, dependsOn_of_outline_eq h.symm⟩
    have huses : g'.IsUsedBy source user ↔ g.IsUsedBy source user :=
      ⟨isUsedBy_of_outline_eq h, isUsedBy_of_outline_eq h.symm⟩
    rw [hdeps, hg.linked, huses]

theorem outline_changeUnit {change : ScheduleUnit → ScheduleUnit}
    (h : g.changeUnit id change = .ok g')
    (hchange : ∀ unit, (change unit).outline = unit.outline) : g'.outline = g.outline := by
  obtain ⟨_, rfl⟩ := changeUnit_eq_ok.mp h
  simp only [outline, map_modify_eq hchange, skeleton]

/-! ## New units -/

theorem IsControl.lt_size (h : g.IsControl id) : id < g.units.size :=
  lt_size_of_getElem? h.choose_spec.1

theorem IsData.lt_size (h : g.IsData id) : id < g.units.size :=
  lt_size_of_getElem? h.choose_spec.1

theorem getElem?_adopt :
    (g.adopt unit).units[id]? = if id = g.units.size then some unit else g.units[id]? := by
  simp only [adopt, Array.getElem?_push]

theorem exists_adopt {P : ScheduleUnit → Prop} :
    (∃ unit', (g.adopt unit).units[id]? = some unit' ∧ P unit') ↔
      (id = g.units.size ∧ P unit) ∨ ∃ unit', g.units[id]? = some unit' ∧ P unit' := by
  rw [getElem?_adopt]
  by_cases h : id = g.units.size
  · subst h
    simp
  · simp [h]

/-- A unit that carries the next position is listed when it is put behind the others. -/
theorem Listed.adopt (hg : g.Listed) (hid : unit.id = g.units.size) : (g.adopt unit).Listed where
  positions := by
    intro other unit' hunit
    rw [getElem?_adopt] at hunit
    split at hunit
    next h =>
      cases hunit
      exact hid.trans h.symm
    next => exact hg.positions hunit
  control := by
    intro other
    rw [IsControl, exists_adopt, ← IsControl, ← hg.control, Graph.adopt]
    cases unit.control <;> simp [hid, or_comm]
  data := by
    intro other
    rw [IsData, exists_adopt, ← IsData, ← hg.data, Graph.adopt]
    cases unit.control <;> simp [hid, or_comm]
  controlNodup := by
    have hfresh : unit.id ∉ g.controlUnits := by
      intro hmem
      exact Nat.lt_irrefl _ (hid ▸ (hg.control.mp hmem).lt_size)
    rw [Graph.adopt]
    cases unit.control with
    | false => exact hg.controlNodup
    | true => exact hg.controlNodup.append (by simp) (by simpa using hfresh)
  dataNodup := by
    have hfresh : unit.id ∉ g.dataUnits := by
      intro hmem
      exact Nat.lt_irrefl _ (hid ▸ (hg.data.mp hmem).lt_size)
    rw [Graph.adopt]
    cases unit.control with
    | false => exact hg.dataNodup.append (by simp) (by simpa using hfresh)
    | true => exact hg.dataNodup

section

variable {lead : Instr} {block : BlockId} {funcUnit : FuncUnit} {control : Bool} {latency : Nat}

theorem getElem?_createUnit :
    (g.createUnit lead block funcUnit control latency).units[id]? =
      if id = g.units.size then
        some { id := g.units.size, lead, block, funcUnit, control, latency }
      else g.units[id]? := by
  simp only [createUnit, nextId, Array.getElem?_push]

theorem exists_createUnit {P : ScheduleUnit → Prop} :
    (∃ unit, (g.createUnit lead block funcUnit control latency).units[id]? = some unit ∧
        P unit) ↔
      (id = g.units.size ∧
        P { id := g.units.size, lead, block, funcUnit, control, latency }) ∨
      ∃ unit, g.units[id]? = some unit ∧ P unit :=
  exists_adopt

theorem isControl_createUnit :
    (g.createUnit lead block funcUnit control latency).IsControl id ↔
      (id = g.units.size ∧ control = true) ∨ g.IsControl id :=
  exists_createUnit

theorem dependsOn_createUnit :
    (g.createUnit lead block funcUnit control latency).DependsOn user source ↔
      g.DependsOn user source := by
  unfold DependsOn
  rw [exists_createUnit]
  simp [Table.keys]

theorem isUsedBy_createUnit :
    (g.createUnit lead block funcUnit control latency).IsUsedBy source user ↔
      g.IsUsedBy source user := by
  unfold IsUsedBy
  rw [exists_createUnit]
  have hnone : ¬user ∈ ({} : IndexSet) := List.not_mem_nil
  simp [hnone]

theorem Listed.createUnit (hg : g.Listed) :
    (g.createUnit lead block funcUnit control latency).Listed := by
  let unit : ScheduleUnit := { id := g.units.size, lead, block, funcUnit, control, latency }
  have hadopted : (g.adopt unit).Listed := hg.adopt rfl
  exact ⟨hadopted.positions, hadopted.control, hadopted.data, hadopted.controlNodup,
    hadopted.dataNodup⟩

theorem WellFormed.createUnit (hg : g.WellFormed) :
    (g.createUnit lead block funcUnit control latency).WellFormed where
  toListed := hg.toListed.createUnit
  linked := by
    intro user source
    rw [dependsOn_createUnit, isUsedBy_createUnit]
    exact hg.linked

end

/-! ## Changes of units -/

theorem forall_changeUnit {change : ScheduleUnit → ScheduleUnit} {P : ScheduleUnit → Prop}
    (h : g.changeUnit id change = .ok g')
    (hall : ∀ {other : UnitId} {unit}, g.units[other]? = some unit → P unit)
    (hchange : ∀ {unit}, g.units[id]? = some unit → P (change unit)) {other : UnitId}
    {unit : ScheduleUnit} (hunit : g'.units[other]? = some unit) : P unit := by
  obtain ⟨old, hold, heq⟩ :=
    (exists_changeUnit (P := fun unit' => unit' = unit) h).mp ⟨unit, hunit, rfl⟩
  rw [← heq]
  split
  next hid => exact hchange (hid ▸ hold)
  next => exact hall hold

theorem isControl_changeUnit {change : ScheduleUnit → ScheduleUnit}
    (h : g.changeUnit id change = .ok g')
    (hcontrol : ∀ unit, (change unit).control = unit.control) {other : UnitId} :
    g'.IsControl other ↔ g.IsControl other :=
  exists_changeUnit_iff h fun unit => by rw [hcontrol]

theorem isData_changeUnit {change : ScheduleUnit → ScheduleUnit}
    (h : g.changeUnit id change = .ok g')
    (hcontrol : ∀ unit, (change unit).control = unit.control) {other : UnitId} :
    g'.IsData other ↔ g.IsData other :=
  exists_changeUnit_iff h fun unit => by rw [hcontrol]

theorem dependsOn_changeUnit {change : ScheduleUnit → ScheduleUnit}
    (h : g.changeUnit id change = .ok g')
    (hkeys : ∀ unit, (change unit).deps.keys = unit.deps.keys) {user source : UnitId} :
    g'.DependsOn user source ↔ g.DependsOn user source :=
  exists_changeUnit_iff h fun unit => by rw [hkeys]

theorem isUsedBy_changeUnit {change : ScheduleUnit → ScheduleUnit}
    (h : g.changeUnit id change = .ok g') (huses : ∀ unit, (change unit).uses = unit.uses)
    {user source : UnitId} : g'.IsUsedBy source user ↔ g.IsUsedBy source user :=
  exists_changeUnit_iff h fun unit => by rw [huses]

theorem changeUnit_congr {change change' : ScheduleUnit → ScheduleUnit}
    (hunit : g.units[id]? = some unit) (hchange : change unit = change' unit) :
    g.changeUnit id change = g.changeUnit id change' := by
  have hmodify : g.units.modify id change = g.units.modify id change' := by
    refine Array.ext_getElem? fun other => ?_
    rw [Array.getElem?_modify, Array.getElem?_modify]
    split
    next heq =>
      subst heq
      simp [hunit, hchange]
    next => rfl
  simp only [changeUnit, hmodify]

theorem Listed.changeUnit (hg : g.Listed) {change : ScheduleUnit → ScheduleUnit}
    (h : g.changeUnit id change = .ok g') (hid : ∀ unit, (change unit).id = unit.id)
    (hcontrol : ∀ unit, (change unit).control = unit.control) : g'.Listed where
  positions := by
    intro other unit hunit
    obtain ⟨old, hold, heq⟩ :=
      (exists_changeUnit (P := fun unit' => unit'.id = unit.id) h).mp ⟨unit, hunit, rfl⟩
    rw [← heq, ← hg.positions hold]
    split
    · exact hid old
    · rfl
  control := by
    intro other
    have hunits : g'.controlUnits = g.controlUnits := by
      obtain ⟨_, rfl⟩ := changeUnit_eq_ok.mp h
      rfl
    rw [hunits, hg.control, isControl_changeUnit h hcontrol]
  data := by
    intro other
    have hunits : g'.dataUnits = g.dataUnits := by
      obtain ⟨_, rfl⟩ := changeUnit_eq_ok.mp h
      rfl
    rw [hunits, hg.data, isData_changeUnit h hcontrol]
  controlNodup := by
    obtain ⟨_, rfl⟩ := changeUnit_eq_ok.mp h
    exact hg.controlNodup
  dataNodup := by
    obtain ⟨_, rfl⟩ := changeUnit_eq_ok.mp h
    exact hg.dataNodup

/-! ## Dependencies -/

/-- A dependency is either merged with the one that is there, or makes the target
a use of the source. -/
theorem addDep_eq_ok {target : UnitId} {edge : DepEdge}
    (h : g.addDep target source edge = .ok g') :
    ∃ producer consumer, g.units[source]? = some producer ∧
      g.units[target]? = some consumer ∧ source ≠ consumer.id ∧
      ((∃ old bundle, consumer.dep? source = some old ∧ old.addEdge edge = .ok bundle ∧
        g.changeUnit target (fun unit =>
          { unit with deps := unit.deps.modify source fun _ => bundle }) = .ok g') ∨
      consumer.dep? source = none ∧ ∃ middle,
        g.changeUnit target (fun unit =>
          { unit with
            deps := unit.deps.insert source
              { edge, crossBlock := decide (producer.block ≠ consumer.block) } }) =
            .ok middle ∧
        middle.changeUnit source (·.addUse target) = .ok g') := by
  obtain ⟨_, _, h⟩ := Checked.bind_eq_ok.mp h
  obtain ⟨_, _, h⟩ := Checked.bind_eq_ok.mp h
  obtain ⟨producer, hproducer, h⟩ := Checked.bind_eq_ok.mp h
  obtain ⟨consumer, hconsumer, h⟩ := Checked.bind_eq_ok.mp h
  obtain ⟨⟨consumer', isFirst⟩, hadd, h⟩ := Checked.bind_eq_ok.mp h
  obtain ⟨middle, hmiddle, hend⟩ : ∃ middle,
      g.changeUnit target (fun _ => consumer') = .ok middle ∧
        (if isFirst = true then middle.changeUnit source (·.addUse target)
          else pure middle) = .ok g' :=
    Checked.bind_eq_ok.mp h
  rw [unit_eq_ok] at hproducer hconsumer
  unfold ScheduleUnit.addDep at hadd
  split at hadd
  · cases hadd
  next hne =>
    refine ⟨producer, consumer, hproducer, hconsumer, hne, ?_⟩
    split at hadd
    next old hold =>
      split at hadd
      next bundle hbundle =>
        cases hadd
        rw [if_neg Bool.false_ne_true] at hend
        obtain rfl := Checked.pure_eq_ok.mp hend
        refine Or.inl ⟨old, bundle, hold, hbundle, ?_⟩
        rw [← hmiddle]
        exact changeUnit_congr hconsumer rfl
      next => cases hadd
    next hnone =>
      cases hadd
      rw [if_pos rfl] at hend
      refine Or.inr ⟨hnone, middle, ?_, hend⟩
      rw [← hmiddle]
      exact changeUnit_congr hconsumer rfl

/-- No unit of a listed graph comes to depend on itself. -/
theorem addDep_cases (hg : g.Listed) {target : UnitId} {edge : DepEdge}
    (h : g.addDep target source edge = .ok g') :
    source ≠ target ∧ ∃ producer consumer, g.units[source]? = some producer ∧
      g.units[target]? = some consumer ∧
      ((∃ old bundle, consumer.dep? source = some old ∧ old.addEdge edge = .ok bundle ∧
        g.changeUnit target (fun unit =>
          { unit with deps := unit.deps.modify source fun _ => bundle }) = .ok g') ∨
      consumer.dep? source = none ∧ ∃ middle,
        g.changeUnit target (fun unit =>
          { unit with
            deps := unit.deps.insert source
              { edge, crossBlock := decide (producer.block ≠ consumer.block) } }) =
            .ok middle ∧
        middle.changeUnit source (·.addUse target) = .ok g') := by
  obtain ⟨producer, consumer, hproducer, hconsumer, hne, hcases⟩ := addDep_eq_ok h
  exact ⟨hg.positions hconsumer ▸ hne, producer, consumer, hproducer, hconsumer, hcases⟩

theorem isControl_addDep (hg : g.Listed) {target : UnitId} {edge : DepEdge}
    (h : g.addDep target source edge = .ok g') : g'.IsControl id ↔ g.IsControl id := by
  obtain ⟨_, _, _, _, _, hcases⟩ := addDep_cases hg h
  rcases hcases with ⟨_, _, _, _, hchange⟩ | ⟨_, middle, hmiddle, hend⟩
  · exact isControl_changeUnit hchange fun _ => rfl
  · have hmiddle : middle.IsControl id ↔ g.IsControl id :=
      isControl_changeUnit hmiddle fun _ => rfl
    have hend : g'.IsControl id ↔ middle.IsControl id :=
      isControl_changeUnit hend fun _ => rfl
    exact hend.trans hmiddle

theorem exists_eq_of_addDep (hg : g.Listed) {target : UnitId} {edge : DepEdge}
    (h : g.addDep target source edge = .ok g') : ∃ units, g' = { g with units := units } := by
  obtain ⟨_, _, _, _, _, hcases⟩ := addDep_cases hg h
  rcases hcases with ⟨_, _, _, _, hchange⟩ | ⟨_, middle, hmiddle, hend⟩
  · obtain ⟨_, rfl⟩ := changeUnit_eq_ok.mp hchange
    exact ⟨_, rfl⟩
  · obtain ⟨_, rfl⟩ := changeUnit_eq_ok.mp hmiddle
    obtain ⟨_, rfl⟩ := changeUnit_eq_ok.mp hend
    exact ⟨_, rfl⟩

theorem dependsOn_insertDep {target : UnitId} {consumer : ScheduleUnit} {bundle : EdgeBundle}
    (hconsumer : g.units[target]? = some consumer)
    (h : g.changeUnit target (fun unit =>
      { unit with deps := unit.deps.insert source bundle }) = .ok g') {user other : UnitId} :
    g'.DependsOn user other ↔ (user = target ∧ other = source) ∨ g.DependsOn user other := by
  rw [DependsOn, DependsOn, exists_changeUnit h]
  by_cases heq : target = user
  · subst heq
    simp [hconsumer, Table.mem_keys_insert]
  · simp [heq, Ne.symm heq]

theorem isUsedBy_addUse {target : UnitId} {producer : ScheduleUnit}
    (hproducer : g.units[source]? = some producer)
    (h : g.changeUnit source (·.addUse target) = .ok g') {user other : UnitId} :
    g'.IsUsedBy other user ↔ (user = target ∧ other = source) ∨ g.IsUsedBy other user := by
  rw [IsUsedBy, IsUsedBy, exists_changeUnit h]
  by_cases heq : source = other
  · subst heq
    simp [hproducer, ScheduleUnit.addUse, IndexSet.mem_insert]
  · simp [heq, Ne.symm heq]

theorem WellFormed.addDep (hg : g.WellFormed) {target : UnitId} {edge : DepEdge}
    (h : g.addDep target source edge = .ok g') : g'.WellFormed := by
  obtain ⟨hne, producer, consumer, hproducer, hconsumer, hcases⟩ := addDep_cases hg.toListed h
  rcases hcases with ⟨old, bundle, hold, _, hchange⟩ | ⟨hnone, middle, hmiddle, hend⟩
  · refine ⟨hg.toListed.changeUnit hchange (fun _ => rfl) fun _ => rfl, ?_⟩
    intro user other
    rw [dependsOn_changeUnit hchange fun _ => Table.keys_modify _ _ _,
      isUsedBy_changeUnit hchange fun _ => rfl, hg.linked]
  · have hlisted : middle.Listed :=
      hg.toListed.changeUnit hmiddle (fun _ => rfl) fun _ => rfl
    have hproducer' : middle.units[source]? = some producer := by
      rw [getElem?_changeUnit hmiddle, if_neg (Ne.symm hne), hproducer]
    refine ⟨hlisted.changeUnit hend (fun _ => rfl) fun _ => rfl, ?_⟩
    intro user other
    rw [dependsOn_changeUnit hend fun _ => rfl, dependsOn_insertDep hconsumer hmiddle,
      isUsedBy_addUse hproducer' hend, isUsedBy_changeUnit hmiddle fun _ => rfl, hg.linked]

end Graph

end SlotScheduling
