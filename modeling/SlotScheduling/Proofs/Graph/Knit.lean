import SlotScheduling.Proofs.Graph.Blocks
import SlotScheduling.Proofs.Reachable

/-!
# Dependencies between blocks

While a graph is put together from blocks, an edge is marked as crossing blocks if and only if it
does, every terminator stands in the block that it ends, and an entry waits for nothing but the
terminator of a block before it.
-/

namespace SlotScheduling

namespace Graph

variable {g g' : Graph} {id other user target source : UnitId} {block : BlockId} {edge : DepEdge}
  {bundle : EdgeBundle} {blocks : List BlockId} {change : ScheduleUnit → ScheduleUnit}

/-! ## Edges -/

/-- The edges of the first unit hold a bundle of those from the second one. -/
def HasEdge (g : Graph) (target source : UnitId) (bundle : EdgeBundle) : Prop :=
  ∃ unit, g.units[target]? = some unit ∧ (source, bundle) ∈ unit.deps.entries

theorem hasEdge_of_bundle?_eq_some (h : g.bundle? target source = some bundle) :
    g.HasEdge target source bundle := by
  obtain ⟨unit, hunit, hdep⟩ := Option.bind_eq_some_iff.mp h
  exact ⟨unit, hunit, Table.mem_entries_of_get?_eq_some hdep⟩

theorem HasEdge.dependsOn (h : g.HasEdge target source bundle) : g.DependsOn target source := by
  obtain ⟨unit, hunit, hmem⟩ := h
  exact ⟨unit, hunit, List.mem_map_of_mem hmem⟩

theorem HasEdge.target_lt (h : g.HasEdge target source bundle) : target < g.units.size := by
  obtain ⟨unit, hunit, _⟩ := h
  exact lt_size_of_getElem? hunit

theorem HasEdge.source_lt (h : g.HasEdge target source bundle) (hg : g.Coherent) :
    source < g.units.size :=
  hg.sources h.dependsOn

theorem hasEdge_changeUnit (h : g.changeUnit id change = .ok g')
    (hchange : ∀ unit, (change unit).deps = unit.deps) :
    g'.HasEdge target source bundle ↔ g.HasEdge target source bundle :=
  exists_changeUnit_iff h fun unit => by rw [hchange]

theorem hasEdge_createUnit {lead : Instr} {funcUnit : FuncUnit} {control : Bool} {latency : Nat} :
    (g.createUnit lead block funcUnit control latency).HasEdge target source bundle ↔
      g.HasEdge target source bundle := by
  rw [HasEdge, exists_createUnit]
  exact or_iff_right fun h => List.not_mem_nil h.2

/-- What the edges of a unit can be once one was added. -/
theorem hasEdge_addDep (hg : g.Listed) (h : g.addDep target source edge = .ok g')
    (hedge : g'.HasEdge user other bundle) :
    g.HasEdge user other bundle ∨ (user = target ∧ other = source) ∧
      ((∃ old, g.HasEdge target source old ∧ old.addEdge edge = .ok bundle) ∨
        bundle.edge = edge ∧ ∃ producer consumer, g.units[source]? = some producer ∧
          g.units[target]? = some consumer ∧
          bundle.crossBlock = decide (producer.block ≠ consumer.block)) := by
  obtain ⟨_, producer, consumer, hproducer, hconsumer, hcases⟩ := addDep_cases hg h
  rcases hcases with ⟨old, joined, hold, hjoined, hchange⟩ | ⟨_, middle, hmiddle, hend⟩
  · obtain ⟨unit, hunit, hmem⟩ := (exists_changeUnit hchange).mp hedge
    split at hmem
    next heq =>
      subst heq
      obtain rfl := Option.some.inj (hunit.symm.trans hconsumer)
      rcases Table.mem_entries_modify hmem with hmem | ⟨_, _, heq⟩
      · exact Or.inl ⟨unit, hunit, hmem⟩
      · cases heq
        exact Or.inr ⟨⟨rfl, rfl⟩, Or.inl ⟨old, ⟨unit, hunit,
          Table.mem_entries_of_get?_eq_some hold⟩, hjoined⟩⟩
    next => exact Or.inl ⟨unit, hunit, hmem⟩
  · rw [hasEdge_changeUnit hend fun _ => rfl] at hedge
    obtain ⟨unit, hunit, hmem⟩ := (exists_changeUnit hmiddle).mp hedge
    split at hmem
    next heq =>
      subst heq
      rcases Table.mem_entries_insert.mp hmem with heq | ⟨hmem, _⟩
      · cases heq
        exact Or.inr ⟨⟨rfl, rfl⟩, Or.inr ⟨rfl, producer, consumer, hproducer, hconsumer, rfl⟩⟩
      · exact Or.inl ⟨unit, hunit, hmem⟩
    next => exact Or.inl ⟨unit, hunit, hmem⟩

/-- Removing a dependency adds no edge. -/
theorem hasEdge_of_removeDep (h : g.removeDep target source = .ok g')
    (hedge : g'.HasEdge user other bundle) : g.HasEdge user other bundle := by
  obtain ⟨_, _, hcases⟩ := removeDep_cases h
  rcases hcases with ⟨_, rfl⟩ | ⟨middle, hmiddle, hend⟩
  · exact hedge
  · rw [hasEdge_changeUnit hend fun _ => rfl] at hedge
    obtain ⟨unit, hunit, hmem⟩ := (exists_changeUnit hmiddle).mp hedge
    split at hmem
    · exact ⟨unit, hunit, (List.mem_filter.mp hmem).1⟩
    · exact ⟨unit, hunit, hmem⟩

/-! ## Blocks and entries -/

/-- The block of a unit, if there is such a unit. -/
def block? (g : Graph) (id : UnitId) : Option BlockId := g.units[id]?.map (·.block)

/-- The unit exists, and was made for the entry of a block. -/
def IsEntry (g : Graph) (id : UnitId) : Prop :=
  ∃ unit, g.units[id]? = some unit ∧ unit.lead.isEntry = true

theorem block?_eq {unit : ScheduleUnit} (hunit : g.units[id]? = some unit) :
    g.block? id = some unit.block := by
  simp [block?, hunit]

theorem lt_size_of_block? (h : g.block? id = some block) : id < g.units.size := by
  obtain ⟨unit, hunit, _⟩ := Option.map_eq_some_iff.mp h
  exact lt_size_of_getElem? hunit

theorem block?_of_bare_eq (h : g'.bare = g.bare) : g'.block? = g.block? := by
  funext id
  have hblock : ∀ found : Option ScheduleUnit,
      found.map (·.block) = (found.map ScheduleUnit.bare).map (·.block) := by
    rintro (_ | unit) <;> rfl
  rw [block?, block?, hblock, getElem?_of_bare_eq h, ← hblock]

theorem isEntry_of_bare_eq (h : g'.bare = g.bare) : g'.IsEntry id ↔ g.IsEntry id :=
  exists_iff_of_map_eq (getElem?_of_bare_eq h id) fun _ => Iff.rfl

theorem exitRoot_of_bare_eq (h : g'.bare = g.bare) : g'.exitRoot = g.exitRoot := by
  have hexit := congrArg Graph.exitRoot h
  exact hexit

theorem block?_changeUnit (h : g.changeUnit id change = .ok g')
    (hchange : ∀ unit, (change unit).block = unit.block) : g'.block? = g.block? := by
  funext other
  simp only [block?, getElem?_changeUnit h]
  split
  · cases g.units[other]? with
    | none => rfl
    | some unit => exact congrArg some (hchange unit)
  · rfl

theorem isEntry_changeUnit (h : g.changeUnit id change = .ok g')
    (hchange : ∀ unit, (change unit).lead = unit.lead) : g'.IsEntry other ↔ g.IsEntry other :=
  exists_changeUnit_iff h fun unit => by rw [hchange]

section

variable {lead : Instr} {funcUnit : FuncUnit} {control : Bool} {latency : Nat}

theorem block?_createUnit (hid : id < g.units.size) :
    (g.createUnit lead block funcUnit control latency).block? id = g.block? id := by
  rw [block?, getElem?_createUnit, if_neg (Nat.ne_of_lt hid), block?]

theorem block?_createUnit_size :
    (g.createUnit lead block funcUnit control latency).block? g.units.size = some block := by
  rw [block?, getElem?_createUnit, if_pos rfl, Option.map_some]

theorem isEntry_createUnit (hid : id < g.units.size) :
    (g.createUnit lead block funcUnit control latency).IsEntry id ↔ g.IsEntry id := by
  rw [IsEntry, getElem?_createUnit, if_neg (Nat.ne_of_lt hid), IsEntry]

end

theorem block?_of_agreesBelow {base : Nat} (h : AgreesBelow base g g') (hid : id < base) :
    g'.block? id = g.block? id := by
  have hblock : ∀ found : Option ScheduleUnit,
      found.map (·.block) = (found.map ScheduleUnit.bare).map (·.block) := by
    rintro (_ | unit) <;> rfl
  rw [block?, block?, hblock, h.units hid, ← hblock]

/-! ## Ends of blocks -/

/-- The unit can end the block: it is a unit of the block, and neither the entry nor the exit of the
graph. -/
structure IsEnd (g : Graph) (block : BlockId) (id : UnitId) : Prop where
  block : g.block? id = some block
  notEntry : id ≠ g.entryRoot
  notExit : g.exitRoot ≠ some id

/-- The terminators of the graph end blocks of the list, each one the block that it stands in. -/
def EndsWithin (blocks : List BlockId) (g : Graph) : Prop :=
  ∀ ⦃block id⦄, (block, id) ∈ g.terminators.entries → block ∈ blocks ∧ g.IsEnd block id

theorem EndsWithin.of_terminator? (hg : g.EndsWithin blocks) (h : g.terminator? block = some id) :
    block ∈ blocks ∧ g.IsEnd block id :=
  hg (Table.mem_entries_of_get?_eq_some h)

theorem EndsWithin.mono {blocks' : List BlockId} (hg : g.EndsWithin blocks)
    (hsubset : ∀ block ∈ blocks, block ∈ blocks') : g.EndsWithin blocks' :=
  fun _ _ hmem => ⟨hsubset _ (hg hmem).1, (hg hmem).2⟩

/-- The property only depends on blocks, terminators and the exit. -/
theorem EndsWithin.of_same (hg : g.EndsWithin blocks) (hblocks : g'.block? = g.block?)
    (hends : g'.terminators = g.terminators) (hexit : g'.exitRoot = g.exitRoot) :
    g'.EndsWithin blocks := by
  intro block id hmem
  rw [hends] at hmem
  obtain ⟨hblock, hend⟩ := hg hmem
  exact ⟨hblock, hblocks ▸ hend.block, hend.notEntry, hexit ▸ hend.notExit⟩

theorem EndsWithin.of_bare_eq (hg : g.EndsWithin blocks) (h : g'.bare = g.bare) :
    g'.EndsWithin blocks :=
  hg.of_same (block?_of_bare_eq h) (terminators_of_bare_eq h) (exitRoot_of_bare_eq h)

theorem EndsWithin.changeUnit (hg : g.EndsWithin blocks) (h : g.changeUnit id change = .ok g')
    (hchange : ∀ unit, (change unit).block = unit.block) : g'.EndsWithin blocks := by
  obtain ⟨_, hsetting, _, _, hends⟩ := rest_changeUnit h
  exact hg.of_same (block?_changeUnit h hchange) hends (congrArg (·.2.2.2) hsetting)

theorem EndsWithin.createUnit (hg : g.EndsWithin blocks) {lead : Instr} {funcUnit : FuncUnit}
    {control : Bool} {latency : Nat} :
    (g.createUnit lead block funcUnit control latency).EndsWithin blocks := by
  intro other id hmem
  obtain ⟨hblock, hend⟩ := hg hmem
  exact ⟨hblock, (block?_createUnit (lt_size_of_block? hend.block)).trans hend.block,
    hend.notEntry, hend.notExit⟩

/-- The exit of a graph comes after all terminators. -/
theorem EndsWithin.createExit (hg : g.EndsWithin blocks) :
    (g.createExit block).EndsWithin blocks := by
  have hcreated : (g.createUnit (.exit block) block .trivial true 0).EndsWithin blocks :=
    hg.createUnit
  intro other id hmem
  obtain ⟨hblock, hend⟩ := hcreated hmem
  refine ⟨hblock, hend.block, hend.notEntry, fun hexit => ?_⟩
  have hlt := lt_size_of_block? (hg hmem).2.block
  exact absurd (Option.some.inj hexit) (Nat.ne_of_gt hlt)

theorem EndsWithin.setTerminator (hg : g.EndsWithin blocks) (hend : g.IsEnd block id)
    (hblock : block ∈ blocks) (h : g.setTerminator block id = .ok g') : g'.EndsWithin blocks := by
  obtain ⟨middle, hmiddle, h⟩ := Checked.bind_eq_ok.mp h
  obtain rfl := Checked.pure_eq_ok.mp h
  obtain ⟨_, hsetting, _⟩ := rest_changeUnit hmiddle
  have hblocks : middle.block? = g.block? := block?_changeUnit hmiddle fun _ => rfl
  have hexit : middle.exitRoot = g.exitRoot := congrArg (·.2.2.2) hsetting
  have hsame : middle.EndsWithin blocks := hg.changeUnit hmiddle fun _ => rfl
  intro other last hmem
  rcases Table.mem_entries_insert.mp hmem with heq | ⟨hmem, _⟩
  · cases heq
    exact ⟨hblock, (congrFun hblocks id).trans hend.block, hend.notEntry, hexit ▸ hend.notExit⟩
  · obtain ⟨hother, hlast⟩ := hsame hmem
    exact ⟨hother, hlast.block, hlast.notEntry, hlast.notExit⟩

/-! ## Graphs that are put together from blocks -/

/-- What holds of the dependencies between the blocks of a graph, of which those of the list are
complete. -/
structure Knit (blocks : List BlockId) (g : Graph) : Prop extends Coherent g where
  crosses : ∀ {target source bundle}, g.HasEdge target source bundle →
    bundle.edge.isFixedTiming = false →
      bundle.crossBlock = decide (g.block? source ≠ g.block? target)
  entries : ∀ {target source bundle}, g.HasEdge target source bundle →
    bundle.edge.isFixedTiming = false → g.IsEntry target →
      ∃ block ∈ blocks, g.block? source = some block ∧ g.terminator? block = some source

theorem Knit.mono {blocks' : List BlockId} (hg : Knit blocks g)
    (hsubset : ∀ block ∈ blocks, block ∈ blocks') : Knit blocks' g where
  toCoherent := hg.toCoherent
  crosses := hg.crosses
  entries := by
    intro target source bundle hedge hfixed hentry
    obtain ⟨block, hblock, hends⟩ := hg.entries hedge hfixed hentry
    exact ⟨block, hsubset block hblock, hends⟩

/-- The properties only depend on links, edges, blocks, entries and terminators. -/
theorem Knit.of_same (hg : Knit blocks g) (hlinks : g'.links = g.links)
    (hedges : ∀ {target source bundle}, g'.HasEdge target source bundle →
      g.HasEdge target source bundle)
    (hblocks : g'.block? = g.block?) (hentries : ∀ {id}, g'.IsEntry id → g.IsEntry id)
    (hends : g'.terminators = g.terminators) : Knit blocks g' where
  toCoherent := hg.toCoherent.of_links_eq hlinks
  crosses := by
    intro target source bundle hedge hfixed
    rw [hblocks]
    exact hg.crosses (hedges hedge) hfixed
  entries := by
    intro target source bundle hedge hfixed hentry
    have hterminators : g'.terminator? = g.terminator? := congrArg Table.get? hends
    rw [hblocks, hterminators]
    exact hg.entries (hedges hedge) hfixed (hentries hentry)

theorem knit_start (entryBlock : BlockId) (entrySlot : Nat) :
    Knit [] (start entryBlock entrySlot) := by
  have hnone : ∀ {target source bundle},
      ¬(start entryBlock entrySlot).HasEdge target source bundle := by
    intro target source bundle hedge
    rw [start, createEntry, hasEdge_createUnit] at hedge
    simp [HasEdge] at hedge
  exact ⟨coherent_start entryBlock entrySlot, fun hedge => absurd hedge hnone,
    fun hedge => absurd hedge hnone⟩

theorem Knit.changeUnit (hg : Knit blocks g) (h : g.changeUnit id change = .ok g')
    (hbare : ∀ unit, (change unit).links = unit.links ∧ (change unit).deps = unit.deps ∧
      (change unit).block = unit.block ∧ (change unit).lead = unit.lead) : Knit blocks g' := by
  obtain ⟨_, _, _, _, hends⟩ := rest_changeUnit h
  exact hg.of_same (links_changeUnit h fun unit => (hbare unit).1)
    (hasEdge_changeUnit h fun unit => (hbare unit).2.1).mp
    (block?_changeUnit h fun unit => (hbare unit).2.2.1)
    (isEntry_changeUnit h fun unit => (hbare unit).2.2.2).mp hends

theorem Knit.createUnit (hg : Knit blocks g) {lead : Instr} {funcUnit : FuncUnit} {control : Bool}
    {latency : Nat} : Knit blocks (g.createUnit lead block funcUnit control latency) where
  toCoherent := hg.toCoherent.createUnit
  crosses := by
    intro target source bundle hedge hfixed
    rw [hasEdge_createUnit] at hedge
    rw [block?_createUnit (hedge.source_lt hg.toCoherent), block?_createUnit hedge.target_lt]
    exact hg.crosses hedge hfixed
  entries := by
    intro target source bundle hedge hfixed hentry
    rw [hasEdge_createUnit] at hedge
    obtain ⟨block, hmem, hblock, hends⟩ :=
      hg.entries hedge hfixed ((isEntry_createUnit hedge.target_lt).mp hentry)
    exact ⟨block, hmem, (block?_createUnit (lt_size_of_block? hblock)).trans hblock, hends⟩

theorem Knit.createExit (hg : Knit blocks g) : Knit blocks (g.createExit block) := by
  have hcreated : Knit blocks (g.createUnit (.exit block) block .trivial true 0) := hg.createUnit
  exact ⟨hcreated.toCoherent.of_links_eq rfl, hcreated.crosses, hcreated.entries⟩

/-- An entry may only be made to wait for the terminator of a complete block. -/
theorem Knit.addDep (hg : Knit blocks g) (h : g.addDep target source edge = .ok g')
    (hentry : g.IsEntry target →
      ∃ block ∈ blocks, g.block? source = some block ∧ g.terminator? block = some source) :
    Knit blocks g' := by
  have hbare := bare_addDep h
  have hblocks := block?_of_bare_eq hbare
  have hterminators : g'.terminator? = g.terminator? :=
    congrArg Table.get? (terminators_of_bare_eq hbare)
  refine ⟨hg.toCoherent.addDep h, fun {user other bundle} hedge hfixed => ?_,
    fun {user other bundle} hedge hfixed huser => ?_⟩
  · rw [hblocks]
    rcases hasEdge_addDep hg.toListed h hedge with hold | ⟨⟨rfl, rfl⟩, hcases⟩
    · exact hg.crosses hold hfixed
    · rcases hcases with ⟨old, hold, hadd⟩ | ⟨_, producer, consumer, hproducer, hconsumer, hcross⟩
      · rw [crossBlock_addEdge hadd]
        refine hg.crosses hold ?_
        by_contra hfixedOld
        have hsame := EdgeBundle.addEdge_of_isFixedTiming (by simpa using hfixedOld) hadd
        exact hfixedOld (hsame ▸ hfixed)
      · rw [hcross, block?_eq hproducer, block?_eq hconsumer]
        simp
  · rw [isEntry_of_bare_eq hbare] at huser
    rw [hblocks, hterminators]
    rcases hasEdge_addDep hg.toListed h hedge with hold | ⟨⟨rfl, rfl⟩, _⟩
    · exact hg.entries hold hfixed huser
    · exact hentry huser

theorem Knit.removeDep (hg : Knit blocks g) (h : g.removeDep target source = .ok g') :
    Knit blocks g' := by
  have hbare := bare_removeDep h
  have hterminators : g'.terminator? = g.terminator? :=
    congrArg Table.get? (terminators_of_bare_eq hbare)
  refine ⟨hg.toCoherent.removeDep h, ?_, ?_⟩
  · rw [block?_of_bare_eq hbare]
    exact fun hedge => hg.crosses (hasEdge_of_removeDep h hedge)
  · intro user other bundle hedge hfixed huser
    rw [isEntry_of_bare_eq hbare] at huser
    rw [block?_of_bare_eq hbare, hterminators]
    exact hg.entries (hasEdge_of_removeDep h hedge) hfixed huser

/-- A block that was not complete before gets a terminator. -/
theorem Knit.setTerminator (hg : Knit blocks g) (hnew : block ∉ blocks)
    (h : g.setTerminator block id = .ok g') : Knit blocks g' := by
  obtain ⟨middle, hmiddle, h⟩ := Checked.bind_eq_ok.mp h
  obtain rfl := Checked.pure_eq_ok.mp h
  have hsame : Knit blocks middle := hg.changeUnit hmiddle fun _ => ⟨rfl, rfl, rfl, rfl⟩
  refine ⟨hsame.toCoherent.of_links_eq rfl, hsame.crosses,
    fun {target source bundle} hedge hfixed hentry => ?_⟩
  obtain ⟨other, hmem, hother, hlast⟩ := hsame.entries hedge hfixed hentry
  have hne : block ≠ other := fun heq => hnew (heq ▸ hmem)
  refine ⟨other, hmem, hother, (middle.terminators.get?_insert block other id).trans ?_⟩
  rw [if_neg hne]
  exact hlast

end Graph

end SlotScheduling
