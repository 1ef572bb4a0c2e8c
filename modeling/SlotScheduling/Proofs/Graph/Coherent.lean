import SlotScheduling.Proofs.Graph.Edges

/-!
# Coherent graphs

Dependencies and uses mirror each other, no unit depends on itself, and the two
lists of positions are ascending and hold every unit once.  All of that only
depends on the links of the graph, which most changes of a unit leave alone.
-/

namespace SlotScheduling

/-- What the structure of a graph depends on in one of its units. -/
def ScheduleUnit.links (unit : ScheduleUnit) : UnitId × Bool × List UnitId × IndexSet :=
  (unit.id, unit.control, unit.deps.keys, unit.uses)

namespace Graph

def links (g : Graph) :
    Array (UnitId × Bool × List UnitId × IndexSet) × List UnitId × List UnitId :=
  (g.units.map ScheduleUnit.links, g.controlUnits, g.dataUnits)

structure Sorted (g : Graph) : Prop extends Listed g where
  controlSorted : g.controlUnits.Pairwise (· < ·)
  dataSorted : g.dataUnits.Pairwise (· < ·)

structure Coherent (g : Graph) : Prop extends WellFormed g, Sorted g where
  loopless : ∀ {id}, ¬g.DependsOn id id
  sources : ∀ {user source}, g.DependsOn user source → source < g.units.size
  users : ∀ {user source}, g.IsUsedBy source user → user < g.units.size
  once : (g.controlUnits ++ g.dataUnits).Perm (List.range g.units.size)

variable {g g' : Graph} {id user source target : UnitId} {unit : ScheduleUnit} {ids : List UnitId}
  {edge : DepEdge}

theorem Listed.once (hg : g.Listed) :
    (g.controlUnits ++ g.dataUnits).Perm (List.range g.units.size) := by
  have hdisjoint : g.controlUnits.Disjoint g.dataUnits := fun id hcontrol hdata =>
    (hg.control.mp hcontrol).not_isData (hg.data.mp hdata)
  refine (List.perm_ext_iff_of_nodup (hg.controlNodup.append hg.dataNodup hdisjoint)
    List.nodup_range).mpr fun id => ?_
  rw [List.mem_append, hg.control, hg.data, List.mem_range]
  exact ⟨fun h => h.elim (·.lt_size) (·.lt_size), isControl_or_isData⟩

theorem WellFormed.coherent (hg : g.WellFormed) (hsorted : g.Sorted)
    (hloopless : ∀ {id}, ¬g.DependsOn id id) : g.Coherent where
  toWellFormed := hg
  controlSorted := hsorted.controlSorted
  dataSorted := hsorted.dataSorted
  loopless := hloopless
  sources := by
    intro user source hdepends
    obtain ⟨unit, hunit, _⟩ := hg.linked.mp hdepends
    exact lt_size_of_getElem? hunit
  users := by
    intro user source huses
    obtain ⟨unit, hunit, _⟩ := hg.linked.mpr huses
    exact lt_size_of_getElem? hunit
  once := hg.toListed.once

/-! ## Graphs with the same links -/

theorem exists_iff_of_links_eq {P : UnitId × Bool × List UnitId × IndexSet → Prop}
    (h : g'.links = g.links) (id : UnitId) :
    (∃ unit, g'.units[id]? = some unit ∧ P unit.links) ↔
      ∃ unit, g.units[id]? = some unit ∧ P unit.links := by
  have hpart : ∀ g : Graph, (∃ unit, g.units[id]? = some unit ∧ P unit.links) ↔
      ∃ link, g.links.1[id]? = some link ∧ P link := by
    intro g
    simp only [links, Array.getElem?_map]
    cases g.units[id]? <;> simp
  rw [hpart, h, ← hpart]

theorem links_eq_of_outline_eq (h : g'.outline = g.outline) : g'.links = g.links := by
  have hlinks : ∀ g : Graph, g.outline.links = g.links := by
    intro g
    have hunit : ScheduleUnit.links ∘ ScheduleUnit.outline = ScheduleUnit.links := by
      funext unit
      have hkeys := unit.keys_skeleton
      simpa [ScheduleUnit.links, ScheduleUnit.outline, ScheduleUnit.skeleton,
        ScheduleUnit.frame] using hkeys
    simp only [links, outline, Array.map_map, hunit]
    rfl
  rw [← hlinks g', h, hlinks g]

theorem links_changeUnit {change : ScheduleUnit → ScheduleUnit}
    (h : g.changeUnit id change = .ok g') (hchange : ∀ unit, (change unit).links = unit.links) :
    g'.links = g.links := by
  obtain ⟨_, rfl⟩ := changeUnit_eq_ok.mp h
  simp only [links, map_modify_eq hchange]

theorem links_fuse {op : OpId} {offset : Nat} (h : g.fuse id op offset = .ok g') :
    g'.links = g.links := by
  obtain ⟨_, _, h⟩ := Checked.bind_eq_ok.mp h
  obtain ⟨middle, hmiddle, h⟩ := Checked.bind_eq_ok.mp h
  obtain rfl := Checked.pure_eq_ok.mp h
  have hlinks : middle.links = g.links := links_changeUnit hmiddle fun _ => rfl
  exact hlinks

theorem Coherent.of_links_eq (hg : g.Coherent) (h : g'.links = g.links) : g'.Coherent := by
  have hcontrolUnits : g'.controlUnits = g.controlUnits := congrArg (·.2.1) h
  have hdataUnits : g'.dataUnits = g.dataUnits := congrArg (·.2.2) h
  have hdepends : ∀ {user source}, g'.DependsOn user source ↔ g.DependsOn user source :=
    fun {user source} => exists_iff_of_links_eq (P := fun link => source ∈ link.2.2.1) h user
  have huses : ∀ {user source}, g'.IsUsedBy source user ↔ g.IsUsedBy source user :=
    fun {user source} => exists_iff_of_links_eq (P := fun link => user ∈ link.2.2.2) h source
  have hcontrol : ∀ {id}, g'.IsControl id ↔ g.IsControl id :=
    fun {id} => exists_iff_of_links_eq (P := fun link => link.2.1 = true) h id
  have hdata : ∀ {id}, g'.IsData id ↔ g.IsData id :=
    fun {id} => exists_iff_of_links_eq (P := fun link => link.2.1 = false) h id
  have hlisted : g'.Listed := by
    refine ⟨fun {id unit} hunit => ?_, ?_, ?_, hcontrolUnits ▸ hg.controlNodup,
      hdataUnits ▸ hg.dataNodup⟩
    · obtain ⟨old, hold, hid⟩ :=
        (exists_iff_of_links_eq (P := fun link => link.1 = unit.id) h id).mp ⟨unit, hunit, rfl⟩
      exact hid.symm.trans (hg.positions hold)
    · intro id
      rw [hcontrolUnits, hg.control, hcontrol]
    · intro id
      rw [hdataUnits, hg.data, hdata]
  refine WellFormed.coherent ⟨hlisted, ?_⟩
    ⟨hlisted, hcontrolUnits ▸ hg.controlSorted, hdataUnits ▸ hg.dataSorted⟩ ?_
  · intro user source
    rw [hdepends, hg.linked, huses]
  · intro id
    rw [hdepends]
    exact hg.loopless

/-! ## New units -/

theorem pairwise_append_size (hsorted : ids.Pairwise (· < ·))
    (hlt : ∀ id ∈ ids, id < g.units.size) : (ids ++ [g.units.size]).Pairwise (· < ·) := by
  rw [List.pairwise_append]
  refine ⟨hsorted, List.pairwise_singleton _ _, fun id hid other hother => ?_⟩
  rw [List.mem_singleton] at hother
  exact hother ▸ hlt id hid

theorem Sorted.adopt (hg : g.Sorted) (hid : unit.id = g.units.size) : (g.adopt unit).Sorted where
  toListed := hg.toListed.adopt hid
  controlSorted := by
    rw [Graph.adopt, hid]
    split
    · exact pairwise_append_size hg.controlSorted fun id hmem => (hg.control.mp hmem).lt_size
    · exact hg.controlSorted
  dataSorted := by
    rw [Graph.adopt, hid]
    split
    · exact hg.dataSorted
    · exact pairwise_append_size hg.dataSorted fun id hmem => (hg.data.mp hmem).lt_size

theorem Sorted.of_bare_eq (hg : g.Sorted) (h : g'.bare = g.bare) : g'.Sorted where
  toListed := hg.toListed.of_bare_eq h
  controlSorted := by
    have hunits : g.controlUnits = g'.controlUnits := (congrArg (·.controlUnits) h).symm
    exact hunits ▸ hg.controlSorted
  dataSorted := by
    have hunits : g.dataUnits = g'.dataUnits := (congrArg (·.dataUnits) h).symm
    exact hunits ▸ hg.dataSorted

theorem Coherent.createUnit (hg : g.Coherent) {lead : Instr} {block : BlockId}
    {funcUnit : FuncUnit} {control : Bool} {latency : Nat} :
    (g.createUnit lead block funcUnit control latency).Coherent := by
  let unit : ScheduleUnit := { id := g.units.size, lead, block, funcUnit, control, latency }
  have hadopted : (g.adopt unit).Sorted := hg.toSorted.adopt rfl
  refine WellFormed.coherent hg.toWellFormed.createUnit
    ⟨hg.toListed.createUnit, hadopted.controlSorted, hadopted.dataSorted⟩ fun {id} => ?_
  rw [dependsOn_createUnit]
  exact hg.loopless

theorem coherent_start (entryBlock : BlockId) (entrySlot : Nat) :
    (start entryBlock entrySlot).Coherent := by
  refine Coherent.createUnit (WellFormed.coherent ⟨⟨?_, ?_, ?_, List.nodup_nil, List.nodup_nil⟩, ?_⟩
    ⟨⟨?_, ?_, ?_, List.nodup_nil, List.nodup_nil⟩, .nil, .nil⟩ ?_)
  all_goals simp [IsControl, IsData, DependsOn, IsUsedBy]

/-! ## Changed dependencies -/

theorem dependsOn_addDep (hg : g.Listed) (h : g.addDep target source edge = .ok g')
    {user other : UnitId} :
    g'.DependsOn user other ↔ (user = target ∧ other = source) ∨ g.DependsOn user other := by
  obtain ⟨bundle, _, hbundles⟩ := bundle?_addDep hg h
  rw [dependsOn_iff_bundle?, dependsOn_iff_bundle?, hbundles]
  split
  next hpair => simp [hpair]
  next hpair => simp [hpair]

theorem Coherent.addDep (hg : g.Coherent) (h : g.addDep target source edge = .ok g') :
    g'.Coherent := by
  refine (hg.toWellFormed.addDep h).coherent (hg.toSorted.of_bare_eq (bare_addDep h)) ?_
  intro id hdepends
  obtain ⟨hne, _⟩ := addDep_cases hg.toListed h
  rcases (dependsOn_addDep hg.toListed h).mp hdepends with ⟨rfl, rfl⟩ | hdepends
  · exact hne rfl
  · exact hg.loopless hdepends

theorem Coherent.removeDep (hg : g.Coherent) (h : g.removeDep target source = .ok g') :
    g'.Coherent := by
  refine (hg.toWellFormed.removeDep h).coherent (hg.toSorted.of_bare_eq (bare_removeDep h)) ?_
  intro id hdepends
  rw [dependsOn_iff_bundle?, bundle?_removeDep h] at hdepends
  split at hdepends
  · simp at hdepends
  · exact hg.loopless (dependsOn_iff_bundle?.mpr hdepends)

/-! ## Detached units -/

theorem bare_changeUnits {change : ScheduleUnit → ScheduleUnit}
    (h : g.changeUnits ids change = .ok g') (hchange : ∀ unit, (change unit).bare = unit.bare) :
    g'.bare = g.bare :=
  Checked.foldlM_induction (P := fun g' => g'.bare = g.bare)
    (fun _ _ _ _ hbare hround => (bare_changeUnit hround hchange).trans hbare) rfl h

theorem dependsOn_changeUnits {change : ScheduleUnit → ScheduleUnit}
    (h : g.changeUnits ids change = .ok g')
    (hkeys : ∀ unit, (change unit).deps.keys = unit.deps.keys) :
    g'.DependsOn user source ↔ g.DependsOn user source :=
  Checked.foldlM_induction (P := fun g' => g'.DependsOn user source ↔ g.DependsOn user source)
    (fun _ _ _ _ hdepends hround => (dependsOn_changeUnit hround hkeys).trans hdepends) Iff.rfl h

theorem isUsedBy_changeUnits {change : ScheduleUnit → ScheduleUnit}
    (h : g.changeUnits ids change = .ok g') (huses : ∀ unit, (change unit).uses = unit.uses) :
    g'.IsUsedBy source user ↔ g.IsUsedBy source user :=
  Checked.foldlM_induction (P := fun g' => g'.IsUsedBy source user ↔ g.IsUsedBy source user)
    (fun _ _ _ _ hused hround => (isUsedBy_changeUnit hround huses).trans hused) Iff.rfl h

theorem isUsedBy_removeUses (h : g.changeUnits ids (·.removeUse id) = .ok g') :
    g'.IsUsedBy source user ↔ ¬(user = id ∧ source ∈ ids) ∧ g.IsUsedBy source user := by
  induction ids generalizing g with
  | nil =>
      obtain rfl := Checked.pure_eq_ok.mp h
      simp
  | cons first rest ih =>
      rw [changeUnits, List.foldlM_cons] at h
      obtain ⟨middle, hfirst, h⟩ := Checked.bind_eq_ok.mp h
      rw [ih h, isUsedBy_removeUse hfirst, List.mem_cons]
      tauto

theorem dependsOn_removeDeps (h : g.changeUnits ids (·.removeDep id) = .ok g') :
    g'.DependsOn user source ↔ ¬(user ∈ ids ∧ source = id) ∧ g.DependsOn user source := by
  induction ids generalizing g with
  | nil =>
      obtain rfl := Checked.pure_eq_ok.mp h
      simp
  | cons first rest ih =>
      rw [changeUnits, List.foldlM_cons] at h
      obtain ⟨middle, hfirst, h⟩ := Checked.bind_eq_ok.mp h
      rw [ih h, dependsOn_removeDep hfirst, List.mem_cons]
      tauto

/-- A detached unit is left without dependencies and without uses. -/
theorem detach_eq_ok (hg : g.WellFormed) (h : g.detach id = .ok g') :
    g'.bare = g.bare ∧
      (∀ {user source}, g'.DependsOn user source ↔
        user ≠ id ∧ source ≠ id ∧ g.DependsOn user source) ∧
      ∀ {user source}, g'.IsUsedBy source user ↔
        user ≠ id ∧ source ≠ id ∧ g.IsUsedBy source user := by
  obtain ⟨unit, hunit, h⟩ := Checked.bind_eq_ok.mp h
  obtain ⟨unused, hunused, h⟩ := Checked.bind_eq_ok.mp h
  obtain ⟨freed, hfreed, hend⟩ := Checked.bind_eq_ok.mp h
  rw [unit_eq_ok] at hunit
  have hdeps : ∀ {source}, source ∈ unit.deps.keys ↔ g.DependsOn id source := by
    simp [DependsOn, hunit]
  have huses : ∀ {user}, user ∈ unit.uses.toList ↔ g.IsUsedBy id user := by
    intro user
    simp only [IsUsedBy, hunit, Option.some.injEq, exists_eq_left']
    rfl
  refine ⟨?_, fun {user source} => ?_, fun {user source} => ?_⟩
  · have hunused : unused.bare = g.bare := bare_changeUnits hunused fun _ => rfl
    have hfreed : freed.bare = unused.bare := bare_changeUnits hfreed fun _ => rfl
    exact (bare_changeUnit hend fun _ => rfl).trans (hfreed.trans hunused)
  · have hcleared : g'.DependsOn user source ↔ user ≠ id ∧ freed.DependsOn user source := by
      rw [DependsOn, DependsOn, exists_changeUnit hend]
      by_cases heq : id = user
      · simp [heq, Table.keys]
      · simp [heq, Ne.symm heq]
    have hmirrored : g.DependsOn user id → user ∈ unit.uses.toList := fun hdepends =>
      huses.mpr (hg.linked.mp hdepends)
    rw [hcleared, dependsOn_removeDeps hfreed, dependsOn_changeUnits hunused fun _ => rfl]
    refine and_congr_right fun _ => and_congr_left fun hdepends => ?_
    refine not_congr ⟨And.right, ?_⟩
    rintro rfl
    exact ⟨hmirrored hdepends, rfl⟩
  · have hcleared : g'.IsUsedBy source user ↔ source ≠ id ∧ freed.IsUsedBy source user := by
      rw [IsUsedBy, IsUsedBy, exists_changeUnit hend]
      by_cases heq : id = source
      · have hnone : ¬user ∈ ({} : IndexSet) := List.not_mem_nil
        simp [heq, hnone]
      · simp [heq, Ne.symm heq]
    have hmirrored : g.IsUsedBy source id → source ∈ unit.deps.keys := fun hused =>
      hdeps.mpr (hg.linked.mpr hused)
    rw [hcleared, isUsedBy_changeUnits hfreed fun _ => rfl, isUsedBy_removeUses hunused,
      and_left_comm]
    refine and_congr_left fun hboth => not_congr ⟨And.left, ?_⟩
    rintro rfl
    exact ⟨rfl, hmirrored hboth.2⟩

theorem Coherent.detach (hg : g.Coherent) (h : g.detach id = .ok g') : g'.Coherent := by
  obtain ⟨hbare, hdepends, huses⟩ := detach_eq_ok hg.toWellFormed h
  refine WellFormed.coherent ⟨hg.toListed.of_bare_eq hbare, ?_⟩ (hg.toSorted.of_bare_eq hbare) ?_
  · intro user source
    rw [hdepends, huses, hg.linked]
  · rintro id hself
    exact hg.loopless (hdepends.mp hself).2.2

end Graph

end SlotScheduling
